import OperatingSystem.Kernel.UclampRefs

/-! # The clamp of a runqueue

A runqueue keeps the largest clamp of its buckets, and a bucket the largest clamp
that it has counted since it was last empty. So no enqueued task is clamped below
its own request, and the minimum of the runqueue lies in the bucket of one of its
tasks. Changing the maximum of a lone task in place breaks this: it leaves the
flag of an idle runqueue behind.
-/

namespace OperatingSystem.Kernel

section Top

variable {B : ℕ} {P : Fin B → Bool} {b : Fin B}

theorem find_top_some (h : (List.finRange B).reverse.find? P = some b) :
    P b = true ∧ ∀ c, P c = true → c ≤ b := by
  obtain ⟨hb, as, bs, hl, has⟩ := List.find?_eq_some_iff_append.mp h
  refine ⟨hb, fun c hc => ?_⟩
  have hdesc : (List.finRange B).reverse.Pairwise (· > ·) :=
    List.pairwise_reverse.mpr (List.pairwise_lt_finRange B)
  have hmem : c ∈ (List.finRange B).reverse := by simp
  rw [hl] at hdesc hmem
  rcases List.mem_append.mp hmem with hm | hm
  · exact absurd hc (by simpa using has c hm)
  · rcases List.mem_cons.mp hm with rfl | hm
    · exact le_rfl
    · have := (List.pairwise_append.mp hdesc).2.1
      exact ((List.pairwise_cons.mp this).1 c hm).le

theorem find_top_none (h : (List.finRange B).reverse.find? P = none) (c : Fin B) :
    P c = false := by
  have := List.find?_eq_none.mp h c (by simp)
  simpa using this

end Top

/-- The clamp is the largest one of the buckets in use, whose values lie in their ranges. A maximum
may also be larger, as at the boot. -/
structure UclampRq.Sound {B : ℕ} [NeZero B] (id : ClampId) (u : UclampRq B) : Prop where
  range : ∀ b, (u.bucket b).tasks ≠ 0 → uclampBucketId (u.bucket b).value = b
  bound : ∀ b, (u.bucket b).tasks ≠ 0 → (u.bucket b).value ≤ u.value
  attained : id = .min → (∃ b, (u.bucket b).tasks ≠ 0 ∧ (u.bucket b).value = u.value) ∨
    (∀ b, (u.bucket b).tasks = 0) ∧ u.value = 0

section Rq

variable {B : ℕ} {rq : ClampRq B} {ucSe : UclampSe B} {id j : ClampId} {b : Fin B} {v : ℕ}

theorem uclampRqIncId_value : ((uclampRqIncId rq ucSe id).uclamp id).value =
    max (if rq.idle then ucSe.value else (rq.uclamp id).value) ucSe.value := by
  unfold uclampRqIncId
  rw [setUclamp_of_eq]
  dsimp only
  generalize (if rq.idle = true then ucSe.value else (rq.uclamp id).value) = v
  split <;> omega

theorem uclampRqIncId_bucket_self (rq : ClampRq B) (ucSe : UclampSe B) (id : ClampId) :
    (((uclampRqIncId rq ucSe id).uclamp id).bucket ucSe.bucketId).value =
      if ((rq.uclamp id).bucket ucSe.bucketId).tasks = 0 then ucSe.value
      else max ((rq.uclamp id).bucket ucSe.bucketId).value ucSe.value := by
  unfold uclampRqIncId
  rw [setUclamp_of_eq]
  dsimp only
  rw [Function.update_self]
  dsimp only
  split_ifs <;> omega

theorem uclampRqIncId_bucket_of_ne (rq : ClampRq B) (id : ClampId) (hb : b ≠ ucSe.bucketId) :
    ((uclampRqIncId rq ucSe id).uclamp id).bucket b = (rq.uclamp id).bucket b := by
  unfold uclampRqIncId
  rw [setUclamp_of_eq]
  dsimp only
  rw [Function.update_of_ne hb]

theorem uclampRqIncId_of_ne (hj : j ≠ id) :
    (uclampRqIncId rq ucSe id).uclamp j = (rq.uclamp j) := setUclamp_of_ne _ hj

@[simp] theorem uclampRqIncId_idle : (uclampRqIncId rq ucSe id).idle = rq.idle := rfl

variable [NeZero B]

theorem initUclampRq_sound : ((initUclampRq : ClampRq B).uclamp id).Sound id := by
  refine ⟨fun b hb => absurd rfl hb, fun b hb => absurd rfl hb, ?_⟩
  rintro rfl
  exact Or.inr ⟨fun _ => rfl, rfl⟩

/-- Counting a task keeps the clamp sound, when the idle flag means that there is none yet. -/
theorem UclampRq.Sound.inc (h : (rq.uclamp id).Sound id)
    (hidle : rq.idle = true → ∀ b, ((rq.uclamp id).bucket b).tasks = 0) (hfit : ucSe.Fits) :
    ((uclampRqIncId rq ucSe id).uclamp id).Sound id := by
  have hold : ∀ b, ((rq.uclamp id).bucket b).tasks ≠ 0 → rq.idle = false := by
    intro b hb
    by_contra hi
    exact hb (hidle (by simpa using hi) b)
  have hcount : ∀ b, b ≠ ucSe.bucketId →
      (((uclampRqIncId rq ucSe id).uclamp id).bucket b) = (rq.uclamp id).bucket b :=
    fun b hb => uclampRqIncId_bucket_of_ne rq id hb
  refine ⟨fun b hb => ?_, fun b hb => ?_, fun hid => ?_⟩
  · rcases eq_or_ne b ucSe.bucketId with rfl | hne
    · rw [uclampRqIncId_bucket_self]
      split
      case isTrue => exact hfit.2.symm
      case isFalse ht =>
        rcases le_total ((rq.uclamp id).bucket ucSe.bucketId).value ucSe.value with hle | hle
        · rw [max_eq_right hle]
          exact hfit.2.symm
        · rw [max_eq_left hle]
          exact h.range _ ht
    · rw [hcount b hne] at hb ⊢
      exact h.range b hb
  · rw [uclampRqIncId_value]
    rcases eq_or_ne b ucSe.bucketId with rfl | hne
    · rw [uclampRqIncId_bucket_self]
      split
      case isTrue => exact le_max_right _ _
      case isFalse ht =>
        rw [if_neg (by simp [hold _ ht])]
        exact max_le_max (h.bound _ ht) le_rfl
    · rw [hcount b hne] at hb ⊢
      rw [if_neg (by simp [hold _ hb])]
      exact (h.bound b hb).trans (le_max_left _ _)
  · left
    rw [uclampRqIncId_value]
    have hself : (((uclampRqIncId rq ucSe id).uclamp id).bucket ucSe.bucketId).tasks ≠ 0 := by
      rw [uclampRqIncId_tasks]
      simp
    by_cases hempty : ∀ b, ((rq.uclamp id).bucket b).tasks = 0
    · -- the first task of the runqueue
      refine ⟨ucSe.bucketId, hself, ?_⟩
      rw [uclampRqIncId_bucket_self, if_pos (hempty _)]
      rcases h.attained hid with ⟨b, hb, -⟩ | ⟨-, hv⟩
      · exact absurd (hempty b) hb
      · split
        case isTrue => exact (max_self _).symm
        case isFalse => rw [hv, Nat.zero_max]
    · obtain ⟨b₀, hb₀⟩ := not_forall.mp hempty
      rw [if_neg (by simp [hold _ hb₀])]
      rcases h.attained hid with ⟨b, hb, hv⟩ | ⟨hall, -⟩
      · rcases eq_or_ne b ucSe.bucketId with rfl | hne
        · exact ⟨_, hself, by rw [uclampRqIncId_bucket_self, if_neg hb, hv]⟩
        · rcases le_total (rq.uclamp id).value ucSe.value with hle | hle
          · refine ⟨ucSe.bucketId, hself, ?_⟩
            rw [uclampRqIncId_bucket_self, max_eq_right hle]
            split
            case isTrue => rfl
            case isFalse ht => exact max_eq_right ((h.bound _ ht).trans hle)
          · refine ⟨b, by rwa [hcount b hne], ?_⟩
            rw [hcount b hne, hv, max_eq_left hle]
      · exact absurd (hall b₀) hb₀

end Rq

def UclampRq.drop {B : ℕ} (u : UclampRq B) (b : Fin B) : UclampRq B :=
  { u with bucket := Function.update u.bucket b ⟨(u.bucket b).value, (u.bucket b).tasks - 1⟩ }

section Dec

variable {B : ℕ} {rq : ClampRq B} {u : UclampRq B} {ucSe : UclampSe B} {id j : ClampId}
  {b c : Fin B}

theorem drop_value : ((u.drop b).bucket c).value = (u.bucket c).value := by
  unfold UclampRq.drop
  rcases eq_or_ne c b with rfl | hc
  · simp
  · simp [hc]

theorem drop_tasks_self : ((u.drop b).bucket b).tasks = (u.bucket b).tasks - 1 := by
  simp [UclampRq.drop]

theorem drop_of_ne (hc : c ≠ b) : (u.drop b).bucket c = u.bucket c := by
  simp [UclampRq.drop, hc]

theorem drop_tasks_ne (hc : ((u.drop b).bucket c).tasks ≠ 0) : (u.bucket c).tasks ≠ 0 := by
  rcases eq_or_ne c b with rfl | hne
  · rw [drop_tasks_self] at hc
    omega
  · rwa [drop_of_ne hne] at hc

/-- How the search for the topmost bucket in use ends. -/
inductive MaxValue (u : UclampRq B) (id : ClampId) (v : ℕ) : ℕ → Bool → Prop where
  | top {b : Fin B} : (u.bucket b).tasks ≠ 0 → (∀ c, (u.bucket c).tasks ≠ 0 → c ≤ b) →
      MaxValue u id v (u.bucket b).value false
  | idleMin : id = .min → (∀ b, (u.bucket b).tasks = 0) → MaxValue u id v 0 false
  | idleMax : id = .max → (∀ b, (u.bucket b).tasks = 0) → MaxValue u id v v true

theorem uclampRqMaxValue_spec (rq : ClampRq B) (id : ClampId) (v : ℕ) :
    ∃ w i, MaxValue (rq.uclamp id) id v w i ∧
      uclampRqMaxValue rq id v = ({ rq with idle := rq.idle || i }, w) := by
  unfold uclampRqMaxValue
  dsimp only
  split
  case h_1 b hb =>
    obtain ⟨ht, htop⟩ := find_top_some hb
    refine ⟨_, false, .top (by simpa using ht) fun c hc => htop c (by simpa using hc), ?_⟩
    rw [Bool.or_false]
  case h_2 hnone =>
    have hempty : ∀ b, ((rq.uclamp id).bucket b).tasks = 0 := fun b => by
      simpa using find_top_none hnone b
    cases id with
    | min => exact ⟨0, false, .idleMin rfl hempty, by rw [Bool.or_false]; rfl⟩
    | max => exact ⟨v, true, .idleMax rfl hempty, by rw [Bool.or_true]; rfl⟩

theorem uclampRqDecId_spec (rq : ClampRq B) (id : ClampId) (ha : ucSe.active = true) :
    ∃ w i, uclampRqDecId rq ucSe id = { rq.setUclamp id
        { (rq.uclamp id).drop ucSe.bucketId with value := w } with idle := rq.idle || i } ∧
      ((w = (rq.uclamp id).value ∧ i = false ∧
          (((rq.uclamp id).bucket ucSe.bucketId).tasks - 1 ≠ 0 ∨
            ((rq.uclamp id).bucket ucSe.bucketId).value < (rq.uclamp id).value)) ∨
        ((rq.uclamp id).bucket ucSe.bucketId).tasks - 1 = 0 ∧
          (rq.uclamp id).value ≤ ((rq.uclamp id).bucket ucSe.bucketId).value ∧
          MaxValue ((rq.uclamp id).drop ucSe.bucketId) id ucSe.value w i) := by
  have hpred : ∀ n : ℕ, (if n = 0 then 0 else n - 1) = n - 1 := fun n => by split <;> omega
  unfold uclampRqDecId
  simp only [ha, if_true, hpred]
  split
  case isTrue ht =>
    exact ⟨_, false, by rw [Bool.or_false]; rfl, Or.inl ⟨rfl, rfl, Or.inl ht⟩⟩
  case isFalse ht =>
    split
    case isTrue hle =>
      obtain ⟨w, i, hw, he⟩ := uclampRqMaxValue_spec
        (rq.setUclamp id ((rq.uclamp id).drop ucSe.bucketId)) id ucSe.value
      rw [setUclamp_of_eq] at hw
      refine ⟨w, i, ?_, Or.inr ⟨not_not.mp ht, hle, hw⟩⟩
      change (uclampRqMaxValue (rq.setUclamp id ((rq.uclamp id).drop ucSe.bucketId)) id
        ucSe.value).1.setUclamp id { (rq.uclamp id).drop ucSe.bucketId with
          value := (uclampRqMaxValue (rq.setUclamp id ((rq.uclamp id).drop ucSe.bucketId)) id
            ucSe.value).2 } = _
      rw [he]
      simp [ClampRq.setUclamp]
    case isFalse hlt =>
      exact ⟨_, false, by rw [Bool.or_false]; rfl, Or.inl ⟨rfl, rfl, Or.inr (not_le.mp hlt)⟩⟩

variable [NeZero B]

/-- The value found bounds the buckets in use, because their ranges are in order. -/
theorem MaxValue.sound {v w : ℕ} {i : Bool}
    (hrange : ∀ b, (u.bucket b).tasks ≠ 0 → uclampBucketId (u.bucket b).value = b)
    (h : MaxValue u id v w i) : UclampRq.Sound id { u with value := w } := by
  cases h with
  | @top b hb htop =>
    refine ⟨hrange, fun c hc => ?_, fun _ => Or.inl ⟨b, hb, rfl⟩⟩
    dsimp only at hc ⊢
    rcases (htop c hc).eq_or_lt with rfl | hlt
    · exact le_rfl
    · by_contra hgt
      have hmono := uclampBucketId_mono (B := B) (not_le.mp hgt).le
      rw [hrange c hc, hrange b hb] at hmono
      exact absurd hlt (not_lt.mpr hmono)
  | idleMin _ hempty =>
    exact ⟨hrange, fun c hc => absurd (hempty c) hc, fun _ => Or.inr ⟨hempty, rfl⟩⟩
  | idleMax hid hempty =>
    exact ⟨hrange, fun c hc => absurd (hempty c) hc, fun h => absurd (hid.symm.trans h) (by decide)⟩

theorem UclampRq.Sound.drop (h : u.Sound id)
    (hb : (u.bucket b).tasks - 1 ≠ 0 ∨ (u.bucket b).value < u.value)
    (hpos : (u.bucket b).tasks ≠ 0) : UclampRq.Sound id { u.drop b with value := u.value } := by
  refine ⟨fun c hc => ?_, fun c hc => ?_, fun hid => ?_⟩
  · rw [drop_value]
    exact h.range c (drop_tasks_ne hc)
  · rw [drop_value]
    exact h.bound c (drop_tasks_ne hc)
  · left
    rcases h.attained hid with ⟨c, hc, hv⟩ | ⟨hempty, -⟩
    · refine ⟨c, ?_, by rw [drop_value, hv]⟩
      rcases eq_or_ne c b with rfl | hne
      · dsimp only
        rw [drop_tasks_self]
        rcases hb with hb | hlt
        · exact hb
        · omega
      · rwa [drop_of_ne hne]
    · exact absurd (hempty b) hpos

theorem UclampRq.Sound.dec (h : (rq.uclamp id).Sound id) (ha : ucSe.active = true)
    (hpos : ((rq.uclamp id).bucket ucSe.bucketId).tasks ≠ 0) :
    ((uclampRqDecId rq ucSe id).uclamp id).Sound id := by
  obtain ⟨w, i, he, hcase⟩ := uclampRqDecId_spec rq id ha
  have hu : (uclampRqDecId rq ucSe id).uclamp id =
      { (rq.uclamp id).drop ucSe.bucketId with value := w } := by
    rw [he]
    exact setUclamp_of_eq _
  rw [hu]
  rcases hcase with ⟨rfl, -, hkeep⟩ | ⟨-, -, hmax⟩
  · exact h.drop hkeep hpos
  · refine hmax.sound fun c hc => ?_
    rw [drop_value]
    exact h.range c (drop_tasks_ne hc)

end Dec

end OperatingSystem.Kernel
