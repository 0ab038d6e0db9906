import Mathlib.Data.List.Perm.Subperm
import OperatingSystem.Intersection.Safety

/-! # Ticks

The loop of `job0` ends, and every vehicle crosses in exactly two ticks. A tick
admits at most one vehicle and lets at most one pass, so the printed total time is
the number of vehicles and of admissions to an empty crossing.
-/

namespace OperatingSystem.Intersection

open Op

variable {L : List Point} {c c' : Control} {ph ph' : Phase} {p q : Point}

def progress (g : Globals) : Progress :=
  ⟨g.tick, g.passedList.reduceOption, g.waitingList.reduceOption⟩

section Output

theorem tickHead_out (v : Vars) : (tickHead v).globals.out = v.globals.out ++ [progress v.globals] ∧
    (tickHead v).globals.tick = v.globals.tick + 1 := by
  obtain ⟨k, x, w, j, he⟩ := tickHead_frame v
  rw [he]
  exact ⟨rfl, rfl⟩

theorem work_out (p : Point) (g : Globals) : (work p g).out = g.out ∧ (work p g).tick = g.tick := by
  obtain ⟨jc, pl, i, pr, w, f, he⟩ := work_frame p g
  rw [he]
  exact ⟨rfl, rfl⟩

theorem next_out (h : c.next = some c') :
    c'.globals.out = (if c.code = [] then c.globals.out ++ [progress c.globals] else c.globals.out) ∧
    c'.globals.tick = if c.code = [] then c.globals.tick + 1 else c.globals.tick := by
  cases (Control.step_of_next h).2 with
  | loop hc =>
    have hout := tickHead_out c.toVars
    unfold loop
    dsimp only
    simp only [hc, if_true]
    split <;> exact hout
  | signal hc => simp [hc]
  | wait hc => simp [hc, work_out]
  | putBack hc => simp [hc, putBackAt]
  | saveWhere hc => simp [hc, saveWhereTemp]

end Output

namespace Phase

def atHead : Phase → Bool
  | head _ => true
  | _ => false

def passing : Phase → Option Point
  | leave q _ true => some q
  | _ => none

def entering : Phase → Bool
  | enter _ none true => true
  | _ => false

def crossing : Phase → ℕ
  | head x => x.toList.length
  | enter _ x _ => x.toList.length
  | putBack _ _ => 1
  | save _ _ => 2
  | leave _ x _ => x.toList.length + 1
  | done => 0

/-- The vehicle is crossing, and was admitted before the last `d` printed blocks. -/
def Aged : Phase → Point → ℕ → Prop
  | head x, r, d => x = some r ∧ d = 0
  | enter _ x _, r, d => x = some r ∧ d = 1
  | putBack _ q, r, d => q = r ∧ d = 1
  | save p q, r, d => p = r ∧ d = 0 ∨ q = r ∧ d = 1
  | leave q x _, r, d => q = r ∧ d = 1 ∨ x = some r ∧ d = 0
  | done, _, _ => False

/-- The steps left until the next block is printed. -/
def rank : Phase → ℕ
  | head _ => 0
  | enter _ _ false => 6
  | enter _ _ true => 5
  | putBack _ _ => 4
  | save _ _ => 4
  | leave _ _ false => 3
  | leave _ _ true => 2
  | done => 0

namespace Next

theorem atHead_eq (h : Next ph ph') : (if ph'.atHead then 1 else 0) =
    (if ph.entering then 1 else 0) + ph.passing.toList.length := by
  cases h with
  | signalEnter p x => cases x <;> rfl
  | _ => rfl

theorem crossing_le (h : Next ph ph') : ph.crossing + (if ph.entering then 1 else 0) ≤
    ph'.crossing + ph.passing.toList.length := by
  cases h with
  | signalEnter p x => cases x <;> simp [crossing, entering, passing]
  | _ => simp [crossing, entering, passing]

theorem rank_lt (h : Next ph ph') (hne : ph.atHead = false) : ph'.rank < ph.rank := by
  cases h <;> simp_all [atHead, rank]

theorem rank_le (h : Next ph ph') : ph'.rank ≤ 6 := by
  cases h <;> simp [rank]

end Next

theorem crossing_le_two (ph : Phase) : ph.crossing ≤ 2 := by
  cases ph with
  | head x => cases x <;> simp [crossing]
  | enter p x sig => cases x <;> simp [crossing]
  | leave q x sig => cases x <;> simp [crossing]
  | _ => simp [crossing]

end Phase

structure Output (ph : Phase) (c c' : Control) : Prop where
  out : c'.globals.out =
    if ph.atHead then c.globals.out ++ [progress c.globals] else c.globals.out
  tick : c'.globals.tick = if ph.atHead then c.globals.tick + 1 else c.globals.tick
  passed : c'.globals.passedList.reduceOption = ph.passing.toList

namespace Rep

theorem code_nil_iff (h : Rep L ph c) (hne : ph ≠ .done) : c.code = [] ↔ ph.atHead = true := by
  rw [h.code]
  cases ph with
  | head x => simp [Phase.code, Phase.atHead]
  | enter p x sig => cases x <;> cases sig <;> simp [Phase.code, Phase.atHead]
  | leave q x sig => cases sig <;> simp [Phase.code, Phase.atHead]
  | done => exact absurd rfl hne
  | _ => simp [Phase.code, Phase.atHead]

theorem passed_nil (h : Rep L ph c) (hne : ph.atHead = false) :
    c.globals.passedList.reduceOption = [] := by
  have hp : ph.Passed c.globals := h.passed
  cases ph with
  | head x => cases hne
  | _ =>
    rw [hp.2]
    rfl

theorem next_work (h : Rep L ph c) (hp : ph.pending = some p) (hc : c.next = some c') :
    c'.globals = work p c.globals := by
  have hne : ph ≠ .done := by
    rintro rfl
    cases hp
  obtain ⟨code, hcode⟩ : ∃ code, c.code = wait :: code := by
    rw [h.code]
    cases ph with
    | enter q x sig =>
      cases sig with
      | false => cases hp
      | true => cases x <;> exact ⟨_, rfl⟩
    | leave q x sig =>
      cases sig with
      | false => cases hp
      | true => exact ⟨_, rfl⟩
    | _ => cases hp
  simp only [Control.next, h.not_done hne, hcode, h.pending, hp, job_eq_work] at hc
  rw [← Option.some.inj hc]

theorem output (h : Rep L ph c) (hc : c.next = some c') (hn : ph.Next ph') (h' : Rep L ph' c') :
    Output ph c c' := by
  have hne : ph ≠ .done := by
    rintro rfl
    cases hn
  have hout := next_out hc
  simp only [h.code_nil_iff hne] at hout
  refine ⟨hout.1, hout.2, ?_⟩
  cases hn with
  | enterAlone p =>
    have hp : c.globals.process p = 0 := by simp [h.process, Phase.Crosses]
    rw [h.next_work rfl hc, work_enter hp (h.core.not_finish (Or.inl rfl)).2]
    exact h.passed_nil rfl
  | leave q x =>
    have hq : c.globals.process q = 1 := by simp [h.process, Phase.Crosses]
    obtain ⟨hidx, hlist⟩ : c.globals.passedIndex = 0 ∧
        c.globals.passedList = List.replicate 10 none :=
      h.passed
    rw [h.next_work rfl hc, work_leave hq]
    dsimp only
    rw [hidx, hlist]
    rfl
  | signalEnter p x => cases x <;> exact h'.passed_nil rfl
  | _ => exact h'.passed_nil rfl

end Rep

def Admits (c c' : Control) (p : Point) : Prop :=
  c.globals.process p = 0 ∧ c'.globals.process p = 1

/-- Step `j` admits a vehicle of this start point, after `o` blocks have been printed. -/
def AdmittedAt (list : List Point) (j o : ℕ) (p : Point) : Prop :=
  ∃ a b, handshakeRun list j = some a ∧ handshakeRun list (j + 1) = some b ∧ Admits a b p ∧
    a.globals.out.length = o

def points : List Point := [.p1, .p2, .p3, .p4]

theorem mem_points (p : Point) : p ∈ points := by cases p <;> decide

def admitsAlone (c c' : Control) : Bool :=
  points.all (fun q => c.globals.process q = 0) && points.any fun p => c'.globals.process p = 1

/-- The number of vehicles admitted to the empty crossing in the first `k` steps. -/
def admittedAlone (list : List Point) : ℕ → ℕ
  | 0 => 0
  | k + 1 => admittedAlone list k +
    match handshakeRun list k, handshakeRun list (k + 1) with
    | some c, some c' => if admitsAlone c c' then 1 else 0
    | _, _ => 0

section Admission

variable (h : Rep L ph c) (hn : ph.Next ph') (h' : Rep L ph' c')

include h hn h'

theorem Admits.enter (ha : Admits c c' p) : ∃ x, ph = .enter p x true := by
  obtain ⟨h0, h1⟩ := ha
  have h0 : ¬ ph.Crosses p := fun hx => by simp [h.process, hx] at h0
  have h1 : ph'.Crosses p := by
    by_contra hx
    simp [h'.process, hx] at h1
  cases hn with
  | enterAlone q =>
    obtain rfl := Option.some.inj h1
    exact ⟨none, rfl⟩
  | enterFacing q x =>
    obtain rfl := h1.resolve_right fun hx => h0 (congrArg some hx)
    exact ⟨some x, rfl⟩
  | signalEnter q x => exact absurd h1 h0
  | signalLeave q x => exact absurd h1 h0
  | leave q x => exact absurd (Or.inr h1) h0
  | save q x => exact absurd (h1.symm.imp Option.some.inj id) h0
  | putBack q x => exact absurd (h1.resolve_right (by simp)) h0
  | face q x => exact absurd h1 h0
  | retain q x => exact absurd (congrArg some h1) h0
  | empty q => exact absurd (congrArg some (h1.resolve_right (by simp))) h0
  | select q => cases h1
  | finish => cases h1

theorem Admits.aged (ha : Admits c c' p) : ph.atHead = false ∧ ph'.Aged p 0 := by
  obtain ⟨x, rfl⟩ := Admits.enter h hn h' ha
  cases hn with
  | enterAlone => exact ⟨rfl, rfl, rfl⟩
  | enterFacing => exact ⟨rfl, Or.inl ⟨rfl, rfl⟩⟩

theorem admitsAlone_eq : admitsAlone c c' = ph.entering := by
  have hiff : admitsAlone c c' = true ↔ (∀ q, ¬ ph.Crosses q) ∧ ∃ p, ph'.Crosses p := by
    simp [admitsAlone, mem_points, h.process, h'.process]
  rw [Bool.eq_iff_iff, hiff]
  cases hn with
  | signalEnter q x => cases x <;> simp [Phase.Crosses, Phase.entering]
  | save p q => exact iff_of_false (fun hx => hx.1 p (Or.inl rfl)) (by simp [Phase.entering])
  | signalLeave q x => exact iff_of_false (fun hx => hx.1 q (Or.inl rfl)) (by simp [Phase.entering])
  | leave q x => exact iff_of_false (fun hx => hx.1 q (Or.inl rfl)) (by simp [Phase.entering])
  | _ => simp [Phase.Crosses, Phase.entering]

end Admission

/-- What has become of a vehicle that was admitted after `o` blocks had been printed: it is crossing,
it has passed since the last block, or it is in the block after the next one. -/
def Fate (ph : Phase) (c : Control) (o : ℕ) (p : Point) : Prop :=
  (∃ d, ph.Aged p d ∧ o + d = c.globals.out.length) ∨
  (ph.atHead = true ∧ o + 1 = c.globals.out.length ∧ p ∈ c.globals.passedList.reduceOption) ∨
  ∃ t, c.globals.out[o + 1]? = some t ∧ p ∈ t.passed

/-- A crossing vehicle grows older with every printed block and passes at the age of one block. -/
theorem Phase.Next.aged {d : ℕ} (hn : ph.Next ph') (h : ph.Aged p d) :
    ph'.Aged p (d + if ph.atHead then 1 else 0) ∨ ph.passing = some p ∧ d = 1 := by
  cases hn with
  | select q => cases h.1
  | face q x => exact Or.inl ⟨h.1, by simp [atHead, h.2]⟩
  | retain q x => exact Or.inl ⟨Option.some.inj h.1, by simp [atHead, h.2]⟩
  | empty q => exact Or.inl (Or.inl ⟨Option.some.inj h.1, by simp [atHead, h.2]⟩)
  | finish => cases h.1
  | signalEnter q x => exact Or.inl h
  | enterAlone q => cases h.1
  | enterFacing q x => exact Or.inl (Or.inr ⟨Option.some.inj h.1, h.2⟩)
  | putBack q x => exact Or.inl (Or.inl h)
  | save q x =>
    rcases h with ⟨rfl, h⟩ | h
    · exact Or.inl (Or.inr ⟨rfl, h⟩)
    · exact Or.inl (Or.inl h)
  | signalLeave q x => exact Or.inl h
  | leave q x =>
    rcases h with ⟨rfl, h⟩ | h
    · exact Or.inr ⟨rfl, h⟩
    · exact Or.inl h

theorem Fate.next {o : ℕ} (h : Fate ph c o p) (hn : ph.Next ph') (ho : Output ph c c') :
    Fate ph' c' o p := by
  have hout := ho.out
  rcases h with ⟨d, hd, hlen⟩ | ⟨hhead, hlen, hp⟩ | ⟨t, ht, hp⟩
  · rcases hn.aged hd with hd' | ⟨hpass, rfl⟩
    · refine Or.inl ⟨_, hd', ?_⟩
      rw [hout]
      split <;> simp <;> omega
    · have hhead : ph.atHead = false ∧ ph'.atHead = true := by
        cases hn with
        | leave q x => exact ⟨rfl, rfl⟩
        | _ => cases hpass
      rw [hhead.1] at hout
      refine Or.inr (Or.inl ⟨hhead.2, by simpa [hout] using hlen, ?_⟩)
      simp [ho.passed, hpass]
  · rw [hhead, if_pos rfl] at hout
    refine Or.inr (Or.inr ⟨progress c.globals, ?_, hp⟩)
    rw [hout, hlen, List.getElem?_concat_length]
  · refine Or.inr (Or.inr ⟨t, ?_, hp⟩)
    rw [hout]
    split
    case isTrue => exact (List.getElem?_append_left (List.getElem?_eq_some_iff.mp ht).1).trans ht
    case isFalse => exact ht

def passedSoFar (c : Control) : List Point :=
  c.globals.out.flatMap Progress.passed ++ c.globals.passedList.reduceOption

structure Ticked (L : List Point) (k : ℕ) (ph : Phase) (c : Control) : Prop where
  rep : Rep L ph c
  tick : c.globals.tick = c.globals.out.length + 1
  count : c.globals.out.length + (if ph.atHead then 1 else 0) =
    (passedSoFar c).length + admittedAlone L k
  alone_le : admittedAlone L k ≤ (passedSoFar c).length + ph.crossing
  passed_le : (∀ t ∈ c.globals.out, t.passed.length ≤ 1) ∧
    c.globals.passedList.reduceOption.length ≤ 1
  fate : ∀ j o p, j < k → AdmittedAt L j o p → Fate ph c o p

theorem passedSoFar_next (h : Rep L ph c) (ho : Output ph c c') :
    passedSoFar c' = passedSoFar c ++ ph.passing.toList := by
  unfold passedSoFar
  rw [ho.out, ho.passed]
  cases hh : ph.atHead with
  | true =>
    have hp : ph.passing = none := by
      cases ph with
      | head x => rfl
      | _ => cases hh
    simp [hp, progress]
  | false => simp [h.passed_nil hh]

theorem Ticked.boot (hL : 1 ≤ L.length) : ∃ ph, Ticked L 0 ph (boot L) := by
  obtain ⟨p, l, rfl⟩ := List.exists_cons_of_length_pos hL
  refine ⟨_, boot_rep rfl, rfl, ?_, ?_, ⟨by simp [Intersection.boot, readStart, createRandomList], ?_⟩,
    fun j o p hj => absurd hj (Nat.not_lt_zero j)⟩
  · simp [passedSoFar, Intersection.boot, readStart, createRandomList, admittedAlone, Phase.atHead]
  · simp [admittedAlone]
  · simp [Intersection.boot, readStart, createRandomList]

theorem Ticked.next {k : ℕ} (hL : L.length ≤ 20) (h : Ticked L k ph c)
    (hk : handshakeRun L k = some c) (hc : c.next = some c') :
    ∃ ph', ph.Next ph' ∧ Ticked L (k + 1) ph' c' := by
  obtain ⟨ph', hn, h'⟩ := h.rep.of_next hL hc
  have hk' : handshakeRun L (k + 1) = some c' := by simp [handshakeRun, hk, hc]
  have ho := h.rep.output hc hn h'
  have hpass := passedSoFar_next h.rep ho
  have halone : admittedAlone L (k + 1) = admittedAlone L k + if ph.entering then 1 else 0 := by
    simp only [admittedAlone, hk, hk', admitsAlone_eq h.rep hn h']
  have hhead := hn.atHead_eq
  have hlen : c'.globals.out.length = c.globals.out.length + if ph.atHead then 1 else 0 := by
    rw [ho.out]
    split <;> simp
  refine ⟨ph', hn, h', ?_, ?_, ?_, ⟨?_, ?_⟩, ?_⟩
  · rw [ho.tick, hlen, h.tick]
    split <;> omega
  · have hcount := h.count
    rw [hlen, hpass, List.length_append, halone]
    omega
  · have hle := h.alone_le
    have hcross := hn.crossing_le
    rw [hpass, List.length_append, halone]
    omega
  · intro t ht
    rw [ho.out] at ht
    split at ht
    case isTrue =>
      rcases List.mem_append.mp ht with ht | ht
      · exact h.passed_le.1 t ht
      · rw [List.mem_singleton.mp ht]
        exact h.passed_le.2
    case isFalse => exact h.passed_le.1 t ht
  · rw [ho.passed]
    cases ph.passing <;> simp
  · intro j o p hj hadm
    rcases Nat.lt_succ_iff_lt_or_eq.mp hj with hj | rfl
    · exact (h.fate j o p hj hadm).next hn ho
    · obtain ⟨a, b, ha, hb, hadm, rfl⟩ := hadm
      obtain rfl := Option.some.inj (hk.symm.trans ha)
      obtain rfl := Option.some.inj (hk'.symm.trans hb)
      obtain ⟨hh, haged⟩ := Admits.aged h.rep hn h' hadm
      exact Or.inl ⟨0, haged, by simp [hlen, hh]⟩

theorem handshakeRun_ticked (hL₀ : 1 ≤ L.length) (hL : L.length ≤ 20) {k : ℕ}
    (h : handshakeRun L k = some c) : ∃ ph, Ticked L k ph c := by
  induction k generalizing c with
  | zero =>
    obtain rfl := Option.some.inj h
    exact Ticked.boot hL₀
  | succ k ih =>
    obtain ⟨b, hb, hc⟩ := Option.bind_eq_some_iff.mp h
    obtain ⟨ph, hph⟩ := ih hb
    obtain ⟨ph', -, hph'⟩ := hph.next hL hb hc
    exact ⟨ph', hph'⟩

namespace Ticked

variable {k : ℕ}

theorem passed_length_le (h : Ticked L k ph c) : (passedSoFar c).length ≤ L.length := by
  apply List.Subperm.length_le
  rw [List.subperm_ext_iff]
  intro p _
  have hprinted := h.rep.core.printed p
  have hconserve := h.rep.core.conserve p
  rw [passedSoFar, List.count_append, count_reduceOption]
  omega

/-- The blocks printed in an iteration are paid for by a vehicle that enters or passes. -/
theorem out_length_le (h : Ticked L k ph c) : c.globals.out.length ≤ 2 * L.length + 2 := by
  have hcount := h.count
  have halone := h.alone_le
  have hpassed := h.passed_length_le
  have hcross := ph.crossing_le_two
  omega

/-- The iterations that may follow, and the steps left in this one. -/
theorem terminates (hL : L.length ≤ 20) (h : Ticked L k ph c) (hk : handshakeRun L k = some c)
    {m : ℕ} (hm : 7 * (2 * L.length + 3 - c.globals.out.length) + ph.rank ≤ m) :
    ∃ K e, handshakeRun L K = some e ∧ e.done = true := by
  induction m using Nat.strongRecOn generalizing k ph c with
  | ind m ih =>
    by_cases hd : ph = .done
    · exact ⟨k, c, hk, h.rep.done.mpr hd⟩
    · obtain ⟨c', _, hc, -, -⟩ := h.rep.next hL hd
      obtain ⟨ph', hn, h'⟩ := h.next hL hk hc
      have hk' : handshakeRun L (k + 1) = some c' := by simp [handshakeRun, hk, hc]
      have hlen := h.out_length_le
      have hout := (h.rep.output hc hn h'.rep).out
      cases hh : ph.atHead with
      | true =>
        have hrank := hn.rank_le
        simp only [hh, if_true] at hout
        refine ih _ ?_ h' hk' le_rfl
        rw [hout, List.length_append, List.length_singleton]
        omega
      | false =>
        have hrank := hn.rank_lt hh
        simp only [hh, Bool.false_eq_true, if_false] at hout
        refine ih _ ?_ h' hk' le_rfl
        rw [hout]
        omega

end Ticked

theorem handshakeRun_done (hL₀ : 1 ≤ L.length) (hL : L.length ≤ 20) :
    ∃ k c, handshakeRun L k = some c ∧ c.done = true := by
  obtain ⟨ph, h⟩ := Ticked.boot hL₀
  exact h.terminates hL rfl le_rfl

section Admission

variable {j j' o : ℕ}

theorem AdmittedAt.enter (hL₀ : 1 ≤ L.length) (hL : L.length ≤ 20) (h : AdmittedAt L j o p) :
    ∃ x a, Ticked L j (.enter p x true) a ∧ handshakeRun L j = some a ∧
      a.globals.out.length = o := by
  obtain ⟨a, b, ha, hb, hadm, ho⟩ := h
  obtain ⟨ph, hph⟩ := handshakeRun_ticked hL₀ hL ha
  have hc : a.next = some b := by simpa [handshakeRun, ha] using hb
  obtain ⟨ph', hn, hph'⟩ := hph.next hL ha hc
  obtain ⟨x, rfl⟩ := Admits.enter hph.rep hn hph'.rep hadm
  exact ⟨x, a, hph, ha, ho⟩

theorem AdmittedAt.not_lt (hL₀ : 1 ≤ L.length) (hL : L.length ≤ 20) (h : AdmittedAt L j o p)
    (h' : AdmittedAt L j' o q) : ¬ j < j' := by
  intro hj
  obtain ⟨x, a, hph, -, ho⟩ := h'.enter hL₀ hL
  rcases hph.fate j o p hj h with ⟨d, hd, hlen⟩ | ⟨hhead, -, -⟩ | ⟨t, ht, -⟩
  · have hone : d = 1 := hd.2
    omega
  · cases hhead
  · rw [← ho] at ht
    simp at ht

theorem AdmittedAt.unique (hL₀ : 1 ≤ L.length) (hL : L.length ≤ 20) (h : AdmittedAt L j o p)
    (h' : AdmittedAt L j' o q) : j = j' ∧ p = q := by
  obtain rfl : j = j' :=
    le_antisymm (Nat.le_of_not_lt (h'.not_lt hL₀ hL h)) (Nat.le_of_not_lt (h.not_lt hL₀ hL h'))
  refine ⟨rfl, ?_⟩
  obtain ⟨x, a, hph, ha, -⟩ := h.enter hL₀ hL
  obtain ⟨y, b, hph', hb, -⟩ := h'.enter hL₀ hL
  obtain rfl := Option.some.inj (ha.symm.trans hb)
  have hhand := hph.rep.pending.symm.trans hph'.rep.pending
  exact Option.some.inj hhand

end Admission

theorem admittedAlone_pos (hL₀ : 1 ≤ L.length) (hL : L.length ≤ 20) (k : ℕ) :
    1 ≤ admittedAlone L (k + 1) := by
  induction k with
  | succ k ih => exact ih.trans (Nat.le_add_right _ _)
  | zero =>
    obtain ⟨p, l, rfl⟩ := List.exists_cons_of_length_pos hL₀
    have hrep := boot_rep (L := p :: l) rfl
    obtain ⟨c', ph', hc, hn, hrep'⟩ := hrep.next hL (by simp)
    have halone := admitsAlone_eq hrep hn hrep'
    have hrun : handshakeRun (p :: l) 1 = some c' := hc
    rw [admittedAlone, hrun]
    simp [handshakeRun, halone, Phase.entering]

/-- The intersection run. `job0` reaches its `break` with every `finish` flag set, when every vehicle
has been printed as passed. A vehicle that is admitted before a call of `print_progress` is in the
list of passed vehicles of the call after it, a tick admits at most one vehicle and lets at most one
pass, and the total time is the number of vehicles and of those that were admitted while nobody else
was crossing. -/
theorem total_time (hL₀ : 1 ≤ L.length) (hL : L.length ≤ 20) :
    ∃ K c, handshakeRun L K = some c ∧ c.done = true ∧ (∀ p, c.globals.finish p = true) ∧
      (c.globals.out.flatMap Progress.passed).Perm L ∧
      (∀ j o p, j < K → AdmittedAt L j o p →
        ∃ t, c.globals.out[o + 1]? = some t ∧ p ∈ t.passed) ∧
      (∀ j j' o p p', AdmittedAt L j o p → AdmittedAt L j' o p' → j = j' ∧ p = p') ∧
      (∀ t ∈ c.globals.out, t.passed.length ≤ 1) ∧
      c.globals.tick - 1 = L.length + admittedAlone L K ∧
      L.length + 1 ≤ c.globals.tick - 1 ∧ c.globals.tick - 1 ≤ 2 * L.length := by
  obtain ⟨K, c, hrun, hdone⟩ := handshakeRun_done hL₀ hL
  obtain ⟨ph, h⟩ := handshakeRun_ticked hL₀ hL hrun
  obtain rfl := h.rep.done.mp hdone
  have hlen : (passedSoFar c).length = L.length := by
    simpa [passedSoFar, h.rep.passed_nil rfl] using h.rep.finished.1.length_eq
  have hcount := h.count
  have halone := h.alone_le
  have htick := h.tick
  simp only [Phase.atHead, Phase.crossing, hlen] at hcount halone
  have hpos : 1 ≤ admittedAlone L K := by
    cases K with
    | zero =>
      obtain rfl := Option.some.inj hrun
      cases hdone
    | succ K => exact admittedAlone_pos hL₀ hL K
  refine ⟨K, c, hrun, hdone, allFinish_iff.mp h.rep.locals, h.rep.finished.1, ?_,
    fun j j' o p p' ha ha' => ha.unique hL₀ hL ha', h.passed_le.1, ?_, ?_, ?_⟩
  · intro j o p hj ha
    rcases h.fate j o p hj ha with ⟨d, hd, -⟩ | ⟨hhead, -, -⟩ | ht
    · cases hd
    · cases hhead
    · exact ht
  all_goals
    simp only [Bool.false_eq_true, if_false] at hcount
    omega

/-- Three vehicles, two of them facing each other. -/
theorem total_time_three : ∃ K c, handshakeRun [.p1, .p3, .p2] K = some c ∧ c.done = true ∧
    c.globals.tick - 1 = 3 + admittedAlone [.p1, .p3, .p2] K ∧ 4 ≤ c.globals.tick - 1 ∧
      c.globals.tick - 1 ≤ 6 := by
  obtain ⟨K, c, hrun, hdone, -, -, -, -, -, htick, hle⟩ :=
    total_time (L := [.p1, .p3, .p2]) (by decide) (by decide)
  exact ⟨K, c, hrun, hdone, htick, hle⟩

end OperatingSystem.Intersection
