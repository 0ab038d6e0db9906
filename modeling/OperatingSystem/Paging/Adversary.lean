import OperatingSystem.Paging.Turns

/-! # A string that second chance serves badly

With one page more than frames, requesting the page that the second-chance queue
lacks costs it a fault each time. A round of `2k` requests names every page but
one, so another policy serves it with a single fault, while the queue faults on
all but the last.
-/

namespace OperatingSystem.Paging

variable {α σ : Type*}

/-- A policy with the given steps serves a string from `s` to `t` with `n` faults. -/
inductive Serves (step : α → σ → σ → Prop) (res : σ → Finset α) : σ → List α → ℕ → σ → Prop where
  | nil (s : σ) : Serves step res s [] 0 s
  | hit {p : α} {r : List α} {n : ℕ} {s s' t : σ} : p ∈ res s → step p s s' →
      Serves step res s' r n t → Serves step res s (p :: r) n t
  | fault {p : α} {r : List α} {n : ℕ} {s s' t : σ} : p ∉ res s → step p s s' →
      Serves step res s' r n t → Serves step res s (p :: r) (n + 1) t

section Serves

variable {step : α → σ → σ → Prop} {res : σ → Finset α} {r r' : List α} {n n' : ℕ} {s t u : σ}

theorem Serves.append (h : Serves step res s r n t) (h' : Serves step res t r' n' u) :
    Serves step res s (r ++ r') (n + n') u := by
  induction h with
  | nil => simpa using h'
  | hit hp hs _ ih => exact .hit hp hs (ih h')
  | @fault _ _ n _ _ _ hp hs _ ih =>
    rw [Nat.add_right_comm]
    exact .fault hp hs (ih h')

variable [DecidableEq α]

theorem faultCount_cons {p : α} {S : ℕ → Finset α} (m : ℕ) (hm : m ≤ r.length) :
    faultCount (p :: r) S (m + 1) =
      faultCount r (fun i => S (i + 1)) m + if p ∈ S 0 then 0 else 1 := by
  induction m with
  | zero =>
    rw [faultCount_succ (by simp), faultCount_zero, faultCount_zero]
    rfl
  | succ m ih =>
    rw [faultCount_succ (by simpa using Nat.lt_of_succ_le hm), ih (by omega),
      faultCount_succ (by omega),
      List.getElem_cons_succ, Nat.add_right_comm]

theorem Serves.states (h : Serves step res s r n t) :
    ∃ Q : ℕ → σ, Q 0 = s ∧ (∀ i (hi : i < r.length), step r[i] (Q i) (Q (i + 1))) ∧
      faultCount r (fun i => res (Q i)) r.length = n := by
  have hcons : ∀ {p : α} {r : List α} {s s' : σ} {Q : ℕ → σ}, step p s s' → Q 0 = s' →
      (∀ i (hi : i < r.length), step r[i] (Q i) (Q (i + 1))) →
      ∃ Q' : ℕ → σ, Q' 0 = s ∧
        (∀ i (hi : i < (p :: r).length), step (p :: r)[i] (Q' i) (Q' (i + 1))) ∧
        faultCount (p :: r) (fun i => res (Q' i)) (p :: r).length =
          faultCount r (fun i => res (Q i)) r.length + if p ∈ res s then 0 else 1 := by
    intro p r s s' Q hs h0 hQ
    refine ⟨fun i => Nat.casesOn i s Q, rfl, ?_, faultCount_cons r.length le_rfl⟩
    rintro (_ | i) hi
    · change step p s (Q 0)
      rw [h0]
      exact hs
    · exact hQ i (Nat.lt_of_succ_lt_succ hi)
  induction h with
  | nil s => exact ⟨fun _ => s, rfl, by simp, rfl⟩
  | hit hp hs _ ih =>
    obtain ⟨Q, h0, hQ, hn⟩ := ih
    obtain ⟨Q', h0', hQ', hn'⟩ := hcons hs h0 hQ
    exact ⟨Q', h0', hQ', by rw [hn', hn, if_pos hp, Nat.add_zero]⟩
  | fault hp hs _ ih =>
    obtain ⟨Q, h0, hQ, hn⟩ := ih
    obtain ⟨Q', h0', hQ', hn'⟩ := hcons hs h0 hQ
    exact ⟨Q', h0', hQ', by rw [hn', hn, if_neg hp]⟩

/-- A string that lazy steps serve from the empty set is served by a feasible schedule. -/
theorem Serves.schedule {k : ℕ} {S : Finset α} (h : Serves (Lazy k) id ∅ r n S) :
    ∃ T : Schedule k r, T.faults = n := by
  obtain ⟨Q, h0, hQ, hn⟩ := h.states
  exact ⟨.ofLazy h0 hQ, hn⟩

end Serves

def ChanceStep [DecidableEq α] (k : ℕ) (p : α) (q q' : List (α × Bool)) : Prop := q' = secondChance k p q

def fresh (l : List α) : List (α × Bool) := l.map fun p => (p, false)

section Queue

variable {k : ℕ} {p e x z : α} {l m : List α} {q : List (α × Bool)}

@[simp] theorem fresh_nil : fresh ([] : List α) = [] := rfl

@[simp] theorem fresh_cons (p : α) (l : List α) : fresh (p :: l) = (p, false) :: fresh l := rfl

@[simp] theorem fresh_append (l m : List α) : fresh (l ++ m) = fresh l ++ fresh m :=
  List.map_append

@[simp] theorem map_fst_fresh (l : List α) : (fresh l).map Prod.fst = l := by
  rw [fresh, List.map_map]
  exact List.map_id' l

@[simp] theorem length_fresh (l : List α) : (fresh l).length = l.length := List.length_map _

variable [DecidableEq α]

theorem secondChance_of_full (hp : p ∉ q.map Prod.fst) (hl : q.length = k) :
    secondChance k p q = chance q ++ [(p, false)] := by
  rw [secondChance, if_neg hp, if_neg (by omega)]

theorem serves_load (hl : q.length + l.length ≤ k) (hq : (q.map Prod.fst ++ l).Nodup) :
    Serves (ChanceStep k) keys q l l.length (q ++ fresh l) := by
  induction l generalizing q with
  | nil => simpa using Serves.nil q
  | cons p l ih =>
    have hp : p ∉ q.map Prod.fst :=
      fun hm => List.disjoint_of_nodup_append hq hm List.mem_cons_self
    have hstep : ChanceStep k p q (q ++ [(p, false)]) := by
      rw [ChanceStep, secondChance, if_neg hp, if_pos (by simp at hl; omega)]
    refine .fault (mt mem_keys.mp hp) hstep ?_
    have ih := ih (q := q ++ [(p, false)]) (by simp at hl ⊢; omega) (by simpa using hq)
    simpa using ih

/-- Requesting the missing page, then each page just evicted, runs through the clear bits. -/
theorem serves_rotate (hl : l.length + q.length = k) (hq : (p :: (l ++ q.map Prod.fst)).Nodup) :
    Serves (ChanceStep k) keys (fresh l ++ q) (p :: l).dropLast l.length
      (q ++ fresh (p :: l).dropLast) := by
  induction l generalizing p q with
  | nil => simpa using Serves.nil q
  | cons c l ih =>
    obtain ⟨hp, hn⟩ := List.nodup_cons.mp hq
    have hstep : ChanceStep k p (fresh (c :: l) ++ q) (fresh l ++ (q ++ [(p, false)])) := by
      have hlen : (fresh (c :: l) ++ q).length = k := by rw [List.length_append, length_fresh, hl]
      rw [ChanceStep, secondChance_of_full (by simpa using hp) hlen, fresh_cons,
        List.cons_append, chance, List.append_assoc]
    rw [List.dropLast_cons_cons, fresh_cons, List.length_cons]
    refine .fault (fun hm => hp (by simpa using mem_keys.mp hm)) hstep ?_
    have hperm : (p :: (c :: l ++ q.map Prod.fst)).Perm
        (c :: (l ++ (q ++ [(p, false)]).map Prod.fst)) := by
      rw [List.map_append, ← List.append_assoc, List.cons_append]
      exact (List.perm_append_singleton p (c :: (l ++ q.map Prod.fst))).symm
    have ih := ih (p := c) (q := q ++ [(p, false)]) (by simp at hl ⊢; omega) (hperm.nodup_iff.mp hq)
    simpa using ih

theorem secondChance_last (hp : p ∉ l) :
    secondChance k p (fresh (l ++ [p])) = fresh l ++ [(p, true)] := by
  have hmap : (fresh l).map (fun c => if c.1 = p then (c.1, true) else c) = fresh l := by
    refine (List.map_congr_left fun c hc => if_neg fun he => hp ?_).trans (List.map_id _)
    rw [← map_fst_fresh l, ← he]
    exact List.mem_map_of_mem hc
  rw [secondChance, if_pos (by simp), fresh_append, List.map_append, hmap]
  simp

/-- One round: the queue of `m` and `e` with clear bits and of `z` with a set bit lacks `x`. -/
def round (x e : α) (m : List α) : List α :=
  (x :: m) ++ e :: ((x :: m) ++ [(x :: m).getLast (List.cons_ne_nil x m)])

theorem serves_round (hk : m.length + 2 = k) (hn : (x :: (m ++ [e] ++ [z])).Nodup) :
    Serves (ChanceStep k) keys (fresh (m ++ [e]) ++ [(z, true)]) (round x e m) (2 * k - 1)
      (fresh (e :: (x :: m).dropLast) ++ [((x :: m).getLast (List.cons_ne_nil x m), true)]) := by
  have hne := List.cons_ne_nil x m
  have hmx : (x :: m).Nodup := hn.sublist (by simp)
  have hex : e ∉ x :: m := by
    intro he
    have hperm : (x :: (m ++ [e] ++ [z])).Perm (e :: (x :: m ++ [z])) := by
      have h : ((x :: m) ++ e :: [z]).Perm (e :: ((x :: m) ++ [z])) := List.perm_middle
      simpa using h
    exact (List.nodup_cons.mp (hperm.nodup_iff.mp hn)).1 (List.mem_append_left _ he)
  have hdrop : ∀ a : α, (x :: (m ++ [a])).dropLast = x :: m := fun a => by
    rw [← List.cons_append, List.dropLast_concat]
  -- the missing page and the pages evicted by each other, up to the page with the set bit
  have hfirst := serves_rotate (k := k) (p := x) (l := m ++ [e]) (q := [(z, true)])
    (by simpa using hk) (by simpa using hn)
  rw [hdrop] at hfirst
  have hpass : ChanceStep k e ([(z, true)] ++ fresh (x :: m)) (fresh (m ++ [z]) ++ [(e, false)]) := by
    have hez : e ∉ ([(z, true)] ++ fresh (x :: m)).map Prod.fst := by
      have hez : e ≠ z :=
        (List.nodup_append.mp (List.nodup_cons.mp hn).2).2.2 e (by simp) z (by simp)
      simpa [hez] using hex
    rw [ChanceStep, secondChance_of_full hez (by simp; omega), fresh_cons, List.singleton_append,
      chance, List.cons_append, chance, fresh_append]
    rfl
  have hsecond := serves_rotate (k := k) (p := x) (l := m ++ [z]) (q := [(e, false)])
    (by simpa using hk) (by
      refine (List.Perm.nodup_iff ?_).mp hn
      simpa using (List.Perm.swap z e []).append_left (x :: m))
  rw [hdrop] at hsecond
  have hlast : ChanceStep k ((x :: m).getLast hne) ([(e, false)] ++ fresh (x :: m))
      (fresh (e :: (x :: m).dropLast) ++ [((x :: m).getLast hne, true)]) := by
    have hl := List.dropLast_append_getLast hne
    rw [ChanceStep, ← secondChance_last (k := k) (l := e :: (x :: m).dropLast), List.cons_append, hl]
    · rfl
    · rw [List.mem_cons, not_or]
      rw [← hl, List.nodup_append] at hmx
      refine ⟨fun he => hex (he ▸ List.getLast_mem hne), fun hm => ?_⟩
      exact hmx.2.2 _ hm _ (List.mem_singleton_self _) rfl
  have hfault : e ∉ keys ([(z, true)] ++ fresh (x :: m)) := by
    rw [mem_keys]
    have hez : e ≠ z :=
      (List.nodup_append.mp (List.nodup_cons.mp hn).2).2.2 e (by simp) z (by simp)
    simpa [hez] using hex
  have hhit : (x :: m).getLast hne ∈ keys ([(e, false)] ++ fresh (x :: m)) := by
    rw [mem_keys]
    simp
  have hround := hfirst.append (.fault hfault hpass (hsecond.append (.hit hhit hlast (.nil _))))
  have hcount : (m ++ [e]).length + ((m ++ [z]).length + 0 + 1) = 2 * k - 1 := by
    simp only [List.length_append, List.length_singleton]
    omega
  rwa [hcount] at hround

end Queue

theorem mem_round {e p x : α} {m : List α} (hp : p ∈ round x e m) : p = e ∨ p = x ∨ p ∈ m := by
  have hlast := List.mem_cons.mp (List.getLast_mem (List.cons_ne_nil x m))
  simp only [round, List.mem_append, List.mem_cons, List.not_mem_nil, or_false] at hp
  rcases hp with hp | rfl | hp | rfl
  · exact Or.inr hp
  · exact Or.inl rfl
  · exact Or.inr hp
  · exact Or.inr hlast

section Rounds

variable [DecidableEq α] {k : ℕ} {e x z : α} {l m : List α} {S : Finset α}

theorem serves_lazy_hits (hl : ∀ p ∈ l, p ∈ S) : Serves (Lazy k) id S l 0 S := by
  induction l with
  | nil => exact .nil S
  | cons p l ih =>
    have hp := hl p List.mem_cons_self
    exact .hit hp (.hit hp) (ih fun a ha => hl a (List.mem_cons_of_mem _ ha))

theorem serves_lazy_load (hl : S.card + l.length ≤ k) (hn : l.Nodup) (hS : ∀ p ∈ l, p ∉ S) :
    Serves (Lazy k) id S l l.length (S ∪ l.toFinset) := by
  induction l generalizing S with
  | nil => simpa using Serves.nil S
  | cons p l ih =>
    obtain ⟨hpl, hn⟩ := List.nodup_cons.mp hn
    have hp := hS p List.mem_cons_self
    rw [List.length_cons] at hl
    refine .fault hp (.load hp (by omega)) ?_
    have ih := ih (S := insert p S) (by rw [Finset.card_insert_of_notMem hp]; omega) hn (by
      intro a ha
      rw [Finset.mem_insert, not_or]
      exact ⟨fun he => hpl (he ▸ ha), hS a (List.mem_cons_of_mem _ ha)⟩)
    rwa [List.toFinset_cons, Finset.union_insert, ← Finset.insert_union]

theorem serves_lazy_round (hk : m.length + 2 = k) (hn : (x :: (m ++ [e] ++ [z])).Nodup) :
    Serves (Lazy k) id (m ++ [e] ++ [z]).toFinset (round x e m) 1
      (e :: (x :: m)).toFinset := by
  obtain ⟨hx, hn'⟩ := List.nodup_cons.mp hn
  have hz : z ∉ m ++ [e] := fun hz => (List.nodup_append.mp hn').2.2 z hz z (by simp) rfl
  have herase : insert x ((m ++ [e] ++ [z]).toFinset.erase z) = (e :: (x :: m)).toFinset := by
    ext a
    have hza : a = e ∨ a ∈ m → a ≠ z := by
      rintro (rfl | ha) rfl
      · simp at hz
      · exact hz (List.mem_append_left _ ha)
    simp only [List.mem_toFinset, List.mem_append, List.mem_cons, List.not_mem_nil, or_false,
      Finset.mem_insert, Finset.mem_erase]
    tauto
  have hcard : (m ++ [e] ++ [z]).toFinset.card = k := by
    rw [List.toFinset_card_of_nodup hn']
    simpa using hk
  have hstep : Lazy k x (m ++ [e] ++ [z]).toFinset (e :: (x :: m)).toFinset := by
    rw [← herase]
    exact .evict (by simpa only [List.mem_toFinset] using hx) hcard (by simp)
  refine .fault (by simpa only [id, List.mem_toFinset] using hx) hstep (serves_lazy_hits ?_)
  intro p hp
  simp only [List.mem_toFinset, List.mem_cons]
  exact mem_round (List.mem_cons_of_mem x hp)

theorem serves_rounds (n : ℕ) (hk : m.length + 2 = k) (hn : (x :: (m ++ [e] ++ [z])).Nodup) :
    ∃ r q S, Serves (ChanceStep k) keys (fresh (m ++ [e]) ++ [(z, true)]) r (n * (2 * k - 1)) q ∧
      Serves (Lazy k) id (m ++ [e] ++ [z]).toFinset r n S ∧
      ∀ p ∈ r, p ∈ x :: (m ++ [e] ++ [z]) := by
  induction n generalizing x e z m with
  | zero => exact ⟨[], _, _, by simpa using Serves.nil _, .nil _, by simp⟩
  | succ n ih =>
    have hround := serves_round hk hn
    have hlazy := serves_lazy_round hk hn
    obtain ⟨m', e', hm⟩ : ∃ m' e', e :: (x :: m).dropLast = m' ++ [e'] :=
      ⟨_, _, (List.dropLast_append_getLast (List.cons_ne_nil _ _)).symm⟩
    have hl : e :: (x :: m) = m' ++ [e'] ++ [(x :: m).getLast (List.cons_ne_nil x m)] := by
      rw [← hm, List.cons_append, List.dropLast_append_getLast]
    have hlen := congrArg List.length hl
    have hperm : (x :: (m ++ [e] ++ [z])).Perm (z :: (e :: (x :: m))) := by
      have h₁ : (x :: (m ++ [e] ++ [z])).Perm (z :: (x :: m ++ [e])) := by
        simpa using List.perm_append_singleton z (x :: m ++ [e])
      exact h₁.trans ((List.perm_append_singleton e (x :: m)).cons z)
    have hn' := hperm.nodup_iff.mp hn
    rw [hl] at hn' hlazy
    rw [hm] at hround
    obtain ⟨r, q, S, hq, hS, hr⟩ := ih (by simp at hlen; omega) hn'
    refine ⟨round x e m ++ r, q, S, ?_, ?_, fun p hp => ?_⟩
    · have := hround.append hq
      rwa [Nat.add_comm, ← Nat.succ_mul] at this
    · have := hlazy.append hS
      rwa [Nat.add_comm 1 n] at this
    · rw [hperm.mem_iff]
      rcases List.mem_append.mp hp with hp | hp
      · have := mem_round hp
        simp only [List.mem_cons]
        tauto
      · rw [hl]
        exact hr p hp

/-- Some string of `k + 1` distinct pages costs the second-chance queue `2k - 1` faults for each
fault of another policy, apart from the first `k`. -/
theorem exists_serves (n : ℕ) (hk : m.length + 2 = k) (hn : (x :: (m ++ [e] ++ [z])).Nodup) :
    ∃ r q S, Serves (ChanceStep k) keys [] r (k + n * (2 * k - 1)) q ∧
      Serves (Lazy k) id ∅ r (k + n) S ∧ ∀ p ∈ r, p ∈ x :: (m ++ [e] ++ [z]) := by
  obtain ⟨r, q, S, hq, hS, hr⟩ := serves_rounds n hk hn
  obtain ⟨-, hl⟩ := List.nodup_cons.mp hn
  have hlen : (m ++ [e] ++ [z]).length = k := by simpa using hk
  have hz : z ∉ m ++ [e] := fun hz => (List.nodup_append.mp hl).2.2 z hz z (by simp) rfl
  have hload := serves_load (k := k) (q := []) (l := m ++ [e] ++ [z]) (by simp; omega)
    (by simpa using hl)
  have hlazy := serves_lazy_load (k := k) (S := ∅) (l := m ++ [e] ++ [z]) (by simp; omega) hl
    (by simp)
  rw [hlen] at hload hlazy
  rw [List.nil_append] at hload
  rw [Finset.empty_union] at hlazy
  refine ⟨(m ++ [e] ++ [z]) ++ (z :: r), q, S, ?_, ?_, fun p hp => ?_⟩
  · refine hload.append (.hit (mem_keys.mpr (by simp)) (secondChance_last hz).symm hq)
  · have hzS : z ∈ (m ++ [e] ++ [z]).toFinset := by simp
    exact hlazy.append (.hit hzS (.hit hzS) hS)
  · rcases List.mem_append.mp hp with hp | hp
    · exact List.mem_cons_of_mem _ hp
    · rcases List.mem_cons.mp hp with rfl | hp
      · simp
      · exact hr p hp

end Rounds

end OperatingSystem.Paging
