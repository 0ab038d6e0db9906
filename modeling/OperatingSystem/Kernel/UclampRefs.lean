import OperatingSystem.Kernel.Uclamp

/-! # The tasks counted in the buckets

Every bucket of a runqueue counts exactly the tasks that are enqueued there with
a clamp of the bucket, whatever the order of the actions and also when clamps
come into use while tasks are enqueued.
-/

namespace OperatingSystem.Kernel

section Rq

variable {B : ℕ} {rq : ClampRq B} {ucSe : UclampSe B} {id j : ClampId} {b : Fin B} {v : ℕ}

theorem setUclamp_of_eq (u : UclampRq B) : (rq.setUclamp id u).uclamp id = u := by
  simp [ClampRq.setUclamp]

theorem setUclamp_of_ne (u : UclampRq B) (h : j ≠ id) :
    (rq.setUclamp id u).uclamp j = rq.uclamp j := by
  simp [ClampRq.setUclamp, h]

@[simp] theorem uclampRqMaxValue_uclamp : (uclampRqMaxValue rq id v).1.uclamp = rq.uclamp := by
  unfold uclampRqMaxValue uclampIdleValue
  dsimp only
  split
  · rfl
  · cases id <;> rfl

theorem uclampRqIncId_tasks : (((uclampRqIncId rq ucSe id).uclamp j).bucket b).tasks =
    ((rq.uclamp j).bucket b).tasks + if j = id ∧ b = ucSe.bucketId then 1 else 0 := by
  unfold uclampRqIncId
  rcases eq_or_ne j id with rfl | hj
  · rw [setUclamp_of_eq]
    rcases eq_or_ne b ucSe.bucketId with rfl | hb
    · simp
    · simp [hb]
  · rw [setUclamp_of_ne _ hj]
    simp [hj]

theorem uclampRqDecId_tasks (ha : ucSe.active = true) :
    (((uclampRqDecId rq ucSe id).uclamp j).bucket b).tasks =
      ((rq.uclamp j).bucket b).tasks - if j = id ∧ b = ucSe.bucketId then 1 else 0 := by
  have hpred : ∀ n : ℕ, (if n = 0 then 0 else n - 1) = n - 1 := fun n => by split <;> omega
  unfold uclampRqDecId
  simp only [ha, if_true, hpred]
  rcases eq_or_ne j id with rfl | hj
  · rcases eq_or_ne b ucSe.bucketId with rfl | hb
    · split
      · simp [setUclamp_of_eq]
      · split <;> simp [setUclamp_of_eq]
    · split
      · simp [setUclamp_of_eq, hb]
      · split <;> simp [setUclamp_of_eq, hb]
  · split
    · simp [setUclamp_of_ne, hj]
    · split <;> simp [setUclamp_of_ne, hj]

theorem uclampRqDecId_inactive (ha : ucSe.active = false) : uclampRqDecId rq ucSe id = rq := by
  simp [uclampRqDecId, ha]

end Rq

/-- A change of a task that concerns only its requests and its group. -/
def SameClamps {C G : Type*} {B : ℕ} (t t' : ClampTask C G B) : Prop :=
  t'.uclamp = t.uclamp ∧ t'.cpu = t.cpu ∧ t'.onRq = t.onRq ∧ t'.uclampEnabled = t.uclampEnabled

section Request

variable {C G : Type*} {B : ℕ} {t t' u : ClampTask C G B} {id : ClampId}

theorem SameClamps.trans (h : SameClamps t t') (h' : SameClamps t' u) : SameClamps t u := by
  obtain ⟨hu, hc, hq, he⟩ := h
  obtain ⟨hu', hc', hq', he'⟩ := h'
  exact ⟨hu'.trans hu, hc'.trans hc, hq'.trans hq, he'.trans he⟩

variable [NeZero B]

theorem resetRequest_same (v : ℕ) (attr : ClampAttr) :
    SameClamps t (resetRequest v attr id t) := by
  unfold resetRequest
  split <;> exact ⟨rfl, rfl, rfl, rfl⟩

theorem setRequest_same (util : Option (BitVec 32)) : SameClamps t (setRequest id util t) := by
  unfold setRequest
  split
  · split <;> exact ⟨rfl, rfl, rfl, rfl⟩
  · exact ⟨rfl, rfl, rfl, rfl⟩

theorem setschedulerUclamp_same (v : ℕ) (attr : ClampAttr) :
    SameClamps t (setschedulerUclamp v attr t) :=
  ((resetRequest_same v attr).trans (resetRequest_same v attr)).trans
    ((setRequest_same _).trans (setRequest_same _))

theorem uclampUpdateUtilMinRtDefault_same (v : ℕ) :
    SameClamps t (uclampUpdateUtilMinRtDefault v t) := by
  unfold uclampUpdateUtilMinRtDefault
  split <;> exact ⟨rfl, rfl, rfl, rfl⟩

theorem uclampFork_active (b : Bool) (t : ClampTask C G B) :
    ((uclampFork b t).uclamp id).active = false := by
  unfold uclampFork
  dsimp only
  split <;> rfl

end Request

namespace Clamps

variable {C T G : Type*} {B : ℕ} {m m' : Clamps C T G B} {p q : T} {c d : C} {id j : ClampId}

section Sysctl

variable [NeZero B]

theorem sysctlUclampHandler_same (knob : ClampKnob) (v : ℕ) :
    ∃ d s u, m.sysctlUclampHandler knob v =
      { m with uclampDefault := d, sysctl := s, schedUclampUsed := m.schedUclampUsed || u } := by
  unfold sysctlUclampHandler
  dsimp only
  split
  · exact ⟨m.uclampDefault, m.sysctl, false, by simp⟩
  · exact ⟨_, _, _, rfl⟩

end Sysctl

section Fields

variable {t : ClampTask C G B} {rq : ClampRq B} {ucSe : UclampSe B}

section Rq

variable [DecidableEq C]

@[simp] theorem setRq_self : (m.setRq c rq).rq c = rq := by simp [setRq]

theorem setRq_of_ne (h : d ≠ c) : (m.setRq c rq).rq d = m.rq d := by simp [setRq, h]

end Rq

variable [DecidableEq T]

@[simp] theorem setTask_self : (m.setTask p t).task p = t := by simp [setTask]

theorem setTask_of_ne (h : q ≠ p) : (m.setTask p t).task q = m.task q := by simp [setTask, h]

theorem setClamp_task : (m.setClamp p id ucSe).task q =
    { m.task q with uclamp :=
        if q = p then Function.update (m.task q).uclamp id ucSe else (m.task q).uclamp } := by
  rcases eq_or_ne q p with rfl | h
  · simp [setClamp]
  · simp [setClamp, setTask_of_ne h, h]

theorem setOnRq_uclamp (b : Bool) : ((m.setOnRq p b).task q).uclamp = (m.task q).uclamp := by
  rcases eq_or_ne q p with rfl | hq
  · simp [setOnRq]
  · simp [setOnRq, setTask_of_ne hq]

end Fields

/-- A counted task is enqueued, and will be dequeued with clamps in use. -/
def Engaged (m : Clamps C T G B) : Prop :=
  ∀ p ∈ m.tasks, ∀ id, ((m.task p).uclamp id).active = true →
    (m.task p).onRq = true ∧ m.schedUclampUsed = true ∧ (m.task p).uclampEnabled = true

theorem Engaged.inactive (h : m.Engaged) (hp : p ∈ m.tasks) (hq : (m.task p).onRq = false)
    (id : ClampId) : ((m.task p).uclamp id).active = false := by
  by_contra ha
  have := (h p hp id (by simpa using ha)).1
  simp [hq] at this

variable [DecidableEq C]

def ref (m : Clamps C T G B) (c : C) (id : ClampId) (p : T) : Option (Fin B) :=
  if ((m.task p).uclamp id).active = true ∧ (m.task p).cpu = c then
    some ((m.task p).uclamp id).bucketId
  else none

/-- The buckets count the tasks that refer to them. -/
def Exact (m : Clamps C T G B) : Prop :=
  ∀ c id b, (((m.rq c).uclamp id).bucket b).tasks = tally m.tasks (m.ref c id) b

theorem Exact.congr (h : m.Exact) (ht : m'.tasks = m.tasks)
    (hrq : ∀ c, (m'.rq c).uclamp = (m.rq c).uclamp)
    (href : ∀ c id, ∀ q ∈ m.tasks, m'.ref c id q = m.ref c id q) : m'.Exact := by
  intro c id b
  rw [hrq, h, ht]
  exact (tally_congr (href c id)).symm

variable [DecidableEq T]

theorem ref_setClamp {ucSe : UclampSe B} : (m.setClamp p id ucSe).ref c j =
    if j = id then
      Function.update (m.ref c j) p
        (if ucSe.active = true ∧ (m.task p).cpu = c then some ucSe.bucketId else none)
    else m.ref c j := by
  funext q
  rcases eq_or_ne q p with rfl | hq
  · split
    case isTrue hj => subst hj; simp [ref, setClamp_task]
    case isFalse hj => simp [ref, setClamp_task, hj]
  · split
    case isTrue hj => subst hj; simp [ref, setClamp_task, hq]
    case isFalse hj => simp [ref, setClamp_task, hq]

theorem Exact.rqIncId (h : m.Exact) (hp : p ∈ m.tasks)
    (ha : ((m.task p).uclamp id).active = false) : (m.rqIncId p id).Exact := by
  intro c j b
  have hnone : m.ref c id p = none := by simp [ref, ha]
  have href : (m.rqIncId p id).ref c j = (m.setClamp p id
      { m.uclampEffGet p id with active := true }).ref c j := rfl
  rw [href, ref_setClamp]
  change (((m.setClamp p id _).setRq _ _).rq c |>.uclamp j |>.bucket b).tasks = tally m.tasks _ b
  rcases eq_or_ne c (m.task p).cpu with rfl | hc
  · rw [setRq_self, uclampRqIncId_tasks, h]
    rcases eq_or_ne j id with rfl | hj
    · simp [tally_take hp hnone]
    · simp [hj]
  · rw [setRq_of_ne hc]
    change ((m.rq c).uclamp j |>.bucket b).tasks = _
    rw [h]
    rcases eq_or_ne j id with rfl | hj
    · simp only [if_true, hc.symm, and_false, if_false]
      rw [← hnone, Function.update_eq_self]
    · simp [hj]

theorem Exact.rqDecId (h : m.Exact) (hp : p ∈ m.tasks) : (m.rqDecId p id).Exact := by
  intro c j b
  have href : (m.rqDecId p id).ref c j = (m.setClamp p id
      { (m.task p).uclamp id with active := false }).ref c j := rfl
  rw [href, ref_setClamp]
  change (((m.setClamp p id _).setRq _ _).rq c |>.uclamp j |>.bucket b).tasks = tally m.tasks _ b
  simp only [Bool.false_eq_true, false_and, if_false]
  by_cases hmem : ((m.task p).uclamp id).active = true ∧ (m.task p).cpu = c
  · obtain ⟨ha, rfl⟩ := hmem
    have hsome : m.ref (m.task p).cpu id p = some ((m.task p).uclamp id).bucketId := by
      simp [ref, ha]
    rw [setRq_self, uclampRqDecId_tasks ha, h]
    rcases eq_or_ne j id with rfl | hj
    · have := tally_drop (c := b) hp hsome
      simp only [true_and, if_true]
      omega
    · simp [hj]
  · have hnone : m.ref c id p = none := by simp [ref, hmem]
    have hrq : ((m.setClamp p id { (m.task p).uclamp id with active := false }).setRq
        (m.task p).cpu (uclampRqDecId (m.rq (m.task p).cpu) ((m.task p).uclamp id) id)).rq c =
        m.rq c := by
      rcases eq_or_ne c (m.task p).cpu with rfl | hc
      · rw [setRq_self, uclampRqDecId_inactive (by simpa using hmem)]
      · rw [setRq_of_ne hc]
        rfl
    rw [hrq, h]
    rcases eq_or_ne j id with rfl | hj
    · rw [if_pos rfl, ← hnone, Function.update_eq_self]
    · rw [if_neg hj]

section Frame

theorem rqIncId_task : (m.rqIncId p id).task q =
    { m.task q with uclamp :=
        if q = p then
          Function.update (m.task q).uclamp id { m.uclampEffGet p id with active := true }
        else (m.task q).uclamp } := setClamp_task

theorem rqDecId_task : (m.rqDecId p id).task q =
    { m.task q with uclamp :=
        if q = p then
          Function.update (m.task q).uclamp id { (m.task p).uclamp id with active := false }
        else (m.task q).uclamp } := setClamp_task

theorem rqIncId_active : (((m.rqIncId p id).task q).uclamp j).active =
    if q = p ∧ j = id then true else ((m.task q).uclamp j).active := by
  rw [rqIncId_task]
  rcases eq_or_ne q p with rfl | hq
  · rcases eq_or_ne j id with rfl | hj
    · simp
    · simp [hj]
  · simp [hq]

theorem rqDecId_active : (((m.rqDecId p id).task q).uclamp j).active =
    if q = p ∧ j = id then false else ((m.task q).uclamp j).active := by
  rw [rqDecId_task]
  rcases eq_or_ne q p with rfl | hq
  · rcases eq_or_ne j id with rfl | hj
    · simp
    · simp [hj]
  · simp [hq]

theorem uclampRqInc_active (hu : m.schedUclampUsed = true) (he : (m.task p).uclampEnabled = true) :
    (((m.uclampRqInc p).task q).uclamp j).active =
      if q = p then true else ((m.task q).uclamp j).active := by
  unfold uclampRqInc
  simp only [hu, he, Bool.and_self, if_true]
  change (((((m.rqIncId p .min).rqIncId p .max).task q).uclamp j)).active = _
  rw [rqIncId_active, rqIncId_active]
  cases j <;> by_cases hq : q = p <;> simp [hq]

theorem uclampRqDec_active (hu : m.schedUclampUsed = true) (he : (m.task p).uclampEnabled = true) :
    (((m.uclampRqDec p).task q).uclamp j).active =
      if q = p then false else ((m.task q).uclamp j).active := by
  unfold uclampRqDec
  simp only [hu, he, Bool.and_self, if_true]
  rw [rqDecId_active, rqDecId_active]
  cases j <;> by_cases hq : q = p <;> simp [hq]

theorem uclampRqInc_task : ∃ u, (m.uclampRqInc p).task q = { m.task q with uclamp := u } := by
  unfold uclampRqInc
  split
  · change ∃ u, ((m.rqIncId p .min).rqIncId p .max).task q = _
    rw [rqIncId_task, rqIncId_task]
    exact ⟨_, rfl⟩
  · exact ⟨_, rfl⟩

theorem uclampRqDec_task : ∃ u, (m.uclampRqDec p).task q = { m.task q with uclamp := u } := by
  unfold uclampRqDec
  split
  · rw [rqDecId_task, rqDecId_task]
    exact ⟨_, rfl⟩
  · exact ⟨_, rfl⟩

@[simp] theorem uclampRqInc_tasks : (m.uclampRqInc p).tasks = m.tasks := by
  unfold uclampRqInc
  split <;> rfl

@[simp] theorem uclampRqDec_tasks : (m.uclampRqDec p).tasks = m.tasks := by
  unfold uclampRqDec
  split <;> rfl

@[simp] theorem uclampRqInc_used : (m.uclampRqInc p).schedUclampUsed = m.schedUclampUsed := by
  unfold uclampRqInc
  split <;> rfl

@[simp] theorem uclampRqDec_used : (m.uclampRqDec p).schedUclampUsed = m.schedUclampUsed := by
  unfold uclampRqDec
  split <;> rfl

theorem uclampRqInc_of_off (h : ¬ (m.schedUclampUsed = true ∧ (m.task p).uclampEnabled = true)) :
    m.uclampRqInc p = m := by
  rw [Clamps.uclampRqInc, if_neg (by simpa using h)]

theorem uclampRqDec_of_off (h : ¬ (m.schedUclampUsed = true ∧ (m.task p).uclampEnabled = true)) :
    m.uclampRqDec p = m := by
  rw [Clamps.uclampRqDec, if_neg (by simpa using h)]

theorem uclampRqInc_of_on (hu : m.schedUclampUsed = true)
    (he : (m.task p).uclampEnabled = true) :
    let n := (m.rqIncId p .min).rqIncId p .max
    m.uclampRqInc p = n.setRq (n.task p).cpu { n.rq (n.task p).cpu with idle := false } := by
  rw [Clamps.uclampRqInc, if_pos (by simp [hu, he])]

theorem uclampRqDec_of_on (hu : m.schedUclampUsed = true)
    (he : (m.task p).uclampEnabled = true) :
    m.uclampRqDec p = (m.rqDecId p .min).rqDecId p .max := by
  rw [Clamps.uclampRqDec, if_pos (by simp [hu, he])]

end Frame

theorem Exact.uclampRqInc (h : m.Exact) (hp : p ∈ m.tasks)
    (ha : ∀ id, ((m.task p).uclamp id).active = false) : (m.uclampRqInc p).Exact := by
  unfold Clamps.uclampRqInc
  split
  · have hmin := h.rqIncId hp (ha .min)
    have hmax : (((m.rqIncId p .min).task p).uclamp .max).active = false := by
      simp [rqIncId_active, ha]
    refine (hmin.rqIncId hp hmax).congr rfl (fun c => ?_) fun _ _ _ _ => rfl
    dsimp only
    rcases eq_or_ne c ((((m.rqIncId p .min).rqIncId p .max).task p).cpu) with rfl | hc
    · rw [setRq_self]
    · rw [setRq_of_ne hc]
  · exact h

theorem Exact.uclampRqDec (h : m.Exact) (hp : p ∈ m.tasks) : (m.uclampRqDec p).Exact := by
  unfold Clamps.uclampRqDec
  split
  · exact (h.rqDecId hp).rqDecId hp
  · exact h

theorem Exact.uclampUpdateActive (h : m.Exact) (hp : p ∈ m.tasks) :
    (m.uclampUpdateActive p id).Exact := by
  unfold Clamps.uclampUpdateActive
  split
  · exact (h.rqDecId hp).rqIncId hp (by simp [rqDecId_active])
  · exact h

/-- A task that is counted nowhere may change in every field. -/
theorem ref_setTask {t : ClampTask C G B} (ha : ((m.task p).uclamp id).active = false)
    (ht : (t.uclamp id).active = false) : (m.setTask p t).ref c id q = m.ref c id q := by
  rcases eq_or_ne q p with rfl | hq
  · simp [ref, ha, ht]
  · simp [ref, setTask_of_ne hq]

section Act

def Counted (m : Clamps C T G B) : Prop := m.Exact ∧ m.Engaged

section Boot

variable [NeZero B]

omit [DecidableEq T] in
theorem Booted.counted (h : m.Booted) : m.Counted := by
  constructor
  · intro c id b
    have hnone : ∀ p ∈ m.tasks, m.ref c id p = none := fun p hp => by
      simp [ref, h.inactive p hp]
    have hzero : ¬ 0 < tally m.tasks (m.ref c id) b := by
      rw [tally_pos_iff]
      rintro ⟨p, hp, hsome⟩
      rw [hnone p hp] at hsome
      exact absurd hsome (by simp)
    rw [h.rq]
    exact (Nat.eq_zero_of_not_pos hzero).symm
  · intro p hp id ha
    rw [h.inactive p hp] at ha
    exact absurd ha (by simp)

end Boot

theorem ref_setOnRq (b : Bool) : (m.setOnRq p b).ref c id q = m.ref c id q := by
  rcases eq_or_ne q p with rfl | hq
  · simp [ref, setOnRq]
  · simp [ref, setOnRq, setTask_of_ne hq]

theorem Counted.enqueueTask (h : m.Counted) (hp : p ∈ m.tasks) (hq : (m.task p).onRq = false) :
    (m.enqueueTask p).Counted := by
  obtain ⟨hexact, heng⟩ := h
  have hinactive := heng.inactive hp hq
  refine ⟨(hexact.uclampRqInc hp hinactive).congr rfl (fun _ => rfl)
    fun c id r _ => ref_setOnRq true, ?_⟩
  intro r hr id ha
  rw [Clamps.enqueueTask, setOnRq_uclamp] at ha
  obtain ⟨u, hu⟩ := uclampRqInc_task (m := m) (p := p) (q := r)
  have hused : (m.enqueueTask p).schedUclampUsed = m.schedUclampUsed := uclampRqInc_used
  rw [hused]
  rcases eq_or_ne r p with rfl | hrp
  · simp only [Clamps.enqueueTask, setOnRq, setTask_self, hu, true_and]
    by_contra hoff
    have hsame : m.uclampRqInc r = m := by
      rw [Clamps.uclampRqInc, if_neg (by simpa using hoff)]
    rw [hsame, hinactive id] at ha
    exact absurd ha (by simp)
  · simp only [Clamps.enqueueTask, setOnRq, setTask_of_ne hrp, hu]
    refine heng r (uclampRqInc_tasks (m := m) (p := p) ▸ hr) id ?_
    by_cases hon : m.schedUclampUsed = true ∧ (m.task p).uclampEnabled = true
    · rwa [uclampRqInc_active hon.1 hon.2, if_neg hrp] at ha
    · have hsame : m.uclampRqInc p = m := by
        rw [Clamps.uclampRqInc, if_neg (by simpa using hon)]
      rwa [hsame] at ha

theorem Counted.dequeueTask (h : m.Counted) (hp : p ∈ m.tasks) : (m.dequeueTask p).Counted := by
  obtain ⟨hexact, heng⟩ := h
  have hexact' : (m.setOnRq p false).Exact :=
    hexact.congr rfl (fun _ => rfl) fun c id r _ => ref_setOnRq false
  refine ⟨hexact'.uclampRqDec hp, ?_⟩
  intro r hr id ha
  obtain ⟨u, hu⟩ := uclampRqDec_task (m := m.setOnRq p false) (p := p) (q := r)
  have hr' : r ∈ m.tasks := by simpa [Clamps.dequeueTask, setOnRq, setTask] using hr
  have hused : (m.dequeueTask p).schedUclampUsed = m.schedUclampUsed := uclampRqDec_used
  have hold : ((m.task r).uclamp id).active = true ∧ r ≠ p := by
    by_cases hon : m.schedUclampUsed = true ∧ (m.task p).uclampEnabled = true
    · have hen : ((m.setOnRq p false).task p).uclampEnabled = true := by simpa [setOnRq] using hon.2
      rw [Clamps.dequeueTask, uclampRqDec_active (m := m.setOnRq p false) hon.1 hen] at ha
      split at ha
      case isTrue => exact absurd ha (by simp)
      case isFalse hne => exact ⟨by rwa [setOnRq_uclamp] at ha, hne⟩
    · have hsame : (m.setOnRq p false).uclampRqDec p = m.setOnRq p false := by
        rw [Clamps.uclampRqDec, if_neg (by simpa [setOnRq, setTask] using hon)]
      rw [Clamps.dequeueTask, hsame, setOnRq_uclamp] at ha
      refine ⟨ha, ?_⟩
      rintro rfl
      exact hon (heng r hr' id ha).2
  have := heng r hr' id hold.1
  have htask : (m.dequeueTask p).task r = { m.task r with uclamp := u } := by
    rw [Clamps.dequeueTask, hu, setOnRq, setTask_of_ne hold.2]
  rwa [hused, htask]

theorem Counted.setTask {t : ClampTask C G B} (h : m.Counted)
    (ht : (∀ id, (t.uclamp id).active = false ∧ ((m.task p).uclamp id).active = false) ∨
      SameClamps (m.task p) t) : (m.setTask p t).Counted := by
  obtain ⟨hexact, heng⟩ := h
  constructor
  · refine hexact.congr rfl (fun _ => rfl) fun c id r _ => ?_
    rcases ht with hoff | ⟨hu, hc, _, _⟩
    · exact ref_setTask (hoff id).2 (hoff id).1
    · rcases eq_or_ne r p with rfl | hr
      · simp [ref, hu, hc]
      · simp [ref, setTask_of_ne hr]
  · intro r hr id ha
    rcases eq_or_ne r p with rfl | hrp
    · rw [setTask_self] at ha ⊢
      rcases ht with hoff | ⟨hu, _, hq, he⟩
      · exact absurd ha (by simp [(hoff id).1])
      · rw [hq, he]
        exact heng r hr id (hu ▸ ha)
    · rw [setTask_of_ne hrp] at ha ⊢
      exact heng r hr id ha

theorem Counted.addTask {t : ClampTask C G B} (h : m.Counted) (hp : p ∉ m.tasks)
    (ht : ∀ id, (t.uclamp id).active = false) : (m.addTask p t).Counted := by
  obtain ⟨hexact, heng⟩ := h
  have hself : (m.addTask p t).task p = t := setTask_self
  have hold : ∀ q ∈ m.tasks, (m.addTask p t).task q = m.task q := fun q hq =>
    setTask_of_ne fun he => hp (he ▸ hq)
  constructor
  · intro c id b
    have hnone : (m.addTask p t).ref c id p = none := by simp [ref, hself, ht]
    have hsame : tally m.tasks (m.ref c id) b = tally m.tasks ((m.addTask p t).ref c id) b :=
      tally_congr fun q hq => by rw [ref, ref, hold q hq]
    exact (hexact c id b).trans (hsame.trans (tally_insert hnone).symm)
  · intro q hq id ha
    rcases Finset.mem_insert.mp hq with rfl | hq
    · rw [hself, ht] at ha
      exact absurd ha (by simp)
    · rw [hold q hq] at ha ⊢
      exact heng q hq id ha

theorem Counted.uclampUpdateActive (h : m.Counted) (hp : p ∈ m.tasks) :
    (m.uclampUpdateActive p id).Counted := by
  obtain ⟨hexact, heng⟩ := h
  refine ⟨hexact.uclampUpdateActive hp, ?_⟩
  unfold Clamps.uclampUpdateActive
  split
  case isTrue hact =>
    intro q hq j ha
    have hold : ((m.task q).uclamp j).active = true := by
      rw [rqIncId_active, rqDecId_active] at ha
      by_cases hqp : q = p ∧ j = id
      · rw [hqp.1, hqp.2]
        exact hact
      · simpa [hqp] using ha
    have := heng q hq j hold
    rwa [rqIncId_task, rqDecId_task]
  case isFalse => exact heng

variable [NeZero B] [DecidableEq G] {a : ClampAction C T G}

/-- Every action keeps the references exact. -/
theorem Counted.act (h : m.Counted) (ha : m.act a = some m') : m'.Counted := by
  obtain ⟨hexact, heng⟩ := id h
  cases a with
  | enqueue p =>
    obtain ⟨⟨hp, hq⟩, rfl⟩ := guarded ha
    exact h.enqueueTask hp (by simpa using hq)
  | dequeue p =>
    obtain ⟨⟨hp, -⟩, rfl⟩ := guarded ha
    exact h.dequeueTask hp
  | migrate p c =>
    obtain ⟨⟨hp, hq⟩, rfl⟩ := guarded ha
    have hoff := heng.inactive hp (by simpa using hq)
    exact h.setTask (Or.inl fun id => ⟨hoff id, hoff id⟩)
  | setClass p rt uclampEnabled =>
    obtain ⟨⟨hp, hq⟩, rfl⟩ := guarded ha
    have hoff := heng.inactive hp (by simpa using hq)
    exact h.setTask (Or.inl fun id => ⟨hoff id, hoff id⟩)
  | setattr p attr =>
    obtain ⟨-, rfl⟩ := guarded ha
    exact h.setTask (Or.inr (setschedulerUclamp_same _ attr))
  | fork parent child c r =>
    obtain ⟨⟨-, hchild⟩, rfl⟩ := guarded ha
    exact h.addTask hchild fun id => uclampFork_active r (m.task parent)
  | moveGroup p g =>
    obtain ⟨-, rfl⟩ := guarded ha
    exact h.setTask (Or.inr ⟨rfl, rfl, rfl, rfl⟩)
  | newGroup g parent =>
    obtain rfl := Option.some.inj ha
    exact ⟨hexact, heng⟩
  | groupClamp g id v =>
    obtain ⟨-, rfl⟩ := guarded ha
    exact ⟨hexact, heng⟩
  | sysctl knob v =>
    obtain rfl := Option.some.inj ha
    obtain ⟨d, s, u, he⟩ := sysctlUclampHandler_same (m := m) knob v
    rw [he]
    refine ⟨hexact, fun p hp id hact => ?_⟩
    obtain ⟨hq, hu, hen⟩ := heng p hp id hact
    exact ⟨hq, by simp [hu], hen⟩
  | syncRtDefault p =>
    obtain ⟨-, rfl⟩ := guarded ha
    exact h.setTask (Or.inr (uclampUpdateUtilMinRtDefault_same _))
  | enable =>
    obtain rfl := Option.some.inj ha
    exact ⟨hexact, fun p hp id hact => ⟨(heng p hp id hact).1, rfl, (heng p hp id hact).2.2⟩⟩
  | updateActive p id =>
    obtain ⟨hp, rfl⟩ := guarded ha
    exact h.uclampUpdateActive hp

theorem counted (h : (clamps C T G B).Reachable m) : m.Counted := by
  refine h.invariant (I := Counted) (fun s hs => Booted.counted hs) ?_
  rintro s s' hs ⟨a, ha⟩
  exact hs.act ha

theorem reachable_act (h : (clamps C T G B).Reachable m) (ha : m.act a = some m') :
    (clamps C T G B).Reachable m' :=
  h.tail ⟨a, ha⟩

/-- Over every run each bucket of a runqueue counts exactly the tasks that are enqueued there with
a clamp of the bucket. No count is ever taken below zero, and a runqueue without tasks has empty
buckets. -/
theorem buckets_exact (h : (clamps C T G B).Reachable m) :
    (∀ c id b, (((m.rq c).uclamp id).bucket b).tasks =
      (m.tasks.filter fun p => (m.task p).cpu = c ∧ ((m.task p).uclamp id).active = true ∧
        ((m.task p).uclamp id).bucketId = b).card) ∧
    (∀ p ∈ m.tasks, ∀ id, ((m.task p).uclamp id).active = true → (m.task p).onRq = true ∧
      0 < (((m.rq (m.task p).cpu).uclamp id).bucket ((m.task p).uclamp id).bucketId).tasks) ∧
    ∀ c, (∀ p ∈ m.tasks, (m.task p).cpu = c → (m.task p).onRq = false) →
      ∀ id b, (((m.rq c).uclamp id).bucket b).tasks = 0 := by
  obtain ⟨hexact, heng⟩ := counted h
  have href : ∀ {c id b p}, m.ref c id p = some b ↔ (m.task p).cpu = c ∧
      ((m.task p).uclamp id).active = true ∧ ((m.task p).uclamp id).bucketId = b := by
    intro c id b p
    unfold ref
    split
    case isTrue hc => simp [hc.1, hc.2]
    case isFalse hc =>
      constructor
      · intro hsome
        exact absurd hsome (by simp)
      · rintro ⟨hc', ha, -⟩
        exact absurd ⟨ha, hc'⟩ hc
  refine ⟨fun c id b => ?_, fun p hp id ha => ⟨(heng p hp id ha).1, ?_⟩, fun c hidle id b => ?_⟩
  · rw [hexact, tally]
    congr 1
    exact Finset.filter_congr fun p _ => href
  · rw [hexact]
    exact tally_pos hp (href.mpr ⟨rfl, ha, rfl⟩)
  · rw [hexact]
    refine Nat.eq_zero_of_not_pos fun hpos => ?_
    obtain ⟨p, hp, hsome⟩ := tally_pos_iff.mp hpos
    obtain ⟨hc, ha, -⟩ := href.mp hsome
    have := (heng p hp id ha).1
    rw [hidle p hp hc] at this
    exact absurd this (by simp)

end Act

/-- A CPU with two tasks, of which one is enqueued after clamps came into use. -/
def oneEnqueued : Clamps (Fin 1) (Fin 2) Unit 5 :=
  Clamps.enqueueTask { initUclamp {0, 1} (fun _ => 0) with schedUclampUsed := true } 0

theorem oneEnqueued_reachable : (clamps (Fin 1) (Fin 2) Unit 5).Reachable oneEnqueued := by
  have hboot : (clamps (Fin 1) (Fin 2) Unit 5).Reachable (initUclamp {0, 1} fun _ => 0) :=
    .init (initUclamp_booted _ _)
  exact reachable_act (a := .enqueue 0) (reachable_act (a := .enable) hboot rfl) rfl

def oneCapped : Clamps (Fin 1) (Fin 2) Unit 5 :=
  oneEnqueued.setTask 1
    (setschedulerUclamp schedCapacityScale ⟨none, some 100⟩ (oneEnqueued.task 1))

theorem oneCapped_reachable : (clamps (Fin 1) (Fin 2) Unit 5).Reachable oneCapped := by
  refine reachable_act (a := .setattr 1 ⟨none, some 100⟩) oneEnqueued_reachable ?_
  rw [act, if_pos ⟨by decide, by decide, by decide⟩]
  rfl

theorem buckets_exact_oneEnqueued :
    (∀ c id b, (((oneEnqueued.rq c).uclamp id).bucket b).tasks =
      (oneEnqueued.tasks.filter fun p => (oneEnqueued.task p).cpu = c ∧
        ((oneEnqueued.task p).uclamp id).active = true ∧
        ((oneEnqueued.task p).uclamp id).bucketId = b).card) ∧
    (∀ p ∈ oneEnqueued.tasks, ∀ id, ((oneEnqueued.task p).uclamp id).active = true →
      (oneEnqueued.task p).onRq = true ∧ 0 < (((oneEnqueued.rq (oneEnqueued.task p).cpu).uclamp
        id).bucket ((oneEnqueued.task p).uclamp id).bucketId).tasks) ∧
    ∀ c, (∀ p ∈ oneEnqueued.tasks, (oneEnqueued.task p).cpu = c →
      (oneEnqueued.task p).onRq = false) →
      ∀ id b, (((oneEnqueued.rq c).uclamp id).bucket b).tasks = 0 :=
  buckets_exact oneEnqueued_reachable

end Clamps

end OperatingSystem.Kernel
