import Mathlib.Data.List.Basic

/-! # Reading lines into a bounded buffer

A text over an alphabet with a separator, read piece by piece. Each read takes what is
left of the current line but not more than the room of the buffer, so a line that does
not fit is read in several pieces. The pieces are the lines exactly as far as these fit.
-/

namespace OperatingSystem.Lines

variable {α : Type*}

section Cut

variable {room : ℕ} {word l : List α}

/-- A word starts at none of the places where reads cut a line. -/
def NotCut (room : ℕ) (word l : List α) : Prop := ∀ i, ¬ word <+: l.drop (room * (i + 1))

theorem notCut_of_le (hw : word ≠ []) (h : l.length ≤ room) : NotCut room word l := by
  intro i hword
  rw [List.drop_eq_nil_of_le (Nat.le_trans h (Nat.le_mul_of_pos_right room i.succ_pos))] at hword
  exact hw (List.prefix_nil.mp hword)

theorem notCut_drop : NotCut room word l ↔
    ¬ word <+: l.drop room ∧ NotCut room word (l.drop room) := by
  rw [NotCut, NotCut, ← Nat.and_forall_add_one, Nat.zero_add, Nat.mul_one]
  apply and_congr_right'
  apply forall_congr'
  intro i
  rw [List.drop_drop, Nat.mul_succ room (i + 1), Nat.add_comm]

end Cut

variable [DecidableEq α]

/-- The lines of a text with the separators that end them. Only the last one may lack it. -/
def lines (sep : α) : List α → List (List α)
  | [] => []
  | c :: text =>
    if c = sep then [c] :: lines sep text
    else
      match lines sep text with
      | [] => [[c]]
      | l :: ls => (c :: l) :: ls

/-- What a read into a buffer with room for so many characters takes, and what it leaves. -/
def gets (sep : α) : ℕ → List α → List α × List α
  | 0, text => ([], text)
  | _ + 1, [] => ([], [])
  | room + 1, c :: text =>
    if c = sep then ([c], text)
    else ((c :: (gets sep room text).1), (gets sep room text).2)

/-- What at most `fuel` reads take, up to the end of the text. -/
def reads (sep : α) (room : ℕ) : ℕ → List α → List (List α)
  | 0, _ => []
  | fuel + 1, text =>
    if text = [] then []
    else (gets sep room text).1 :: reads sep room fuel (gets sep room text).2

/-- The pieces in which a text is read. -/
def pieces (sep : α) (room : ℕ) (text : List α) : List (List α) :=
  reads sep room text.length text

variable {sep : α} {room fuel k : ℕ} {text l word : List α} {ls : List (List α)}

section Lines

theorem flatten_lines (sep : α) (text : List α) : (lines sep text).flatten = text := by
  induction text with
  | nil => rfl
  | cons c text ih =>
    rw [lines]
    split
    · rw [List.flatten_cons, ih, List.singleton_append]
    · split
      case h_1 h => rw [← ih, h]; rfl
      case h_2 l ls h => rw [← ih, h]; rfl

theorem nil_notMem_lines (sep : α) (text : List α) : [] ∉ lines sep text := by
  induction text with
  | nil => simp [lines]
  | cons c text ih =>
    rw [lines]
    split
    · simp [ih]
    · split
      · simp
      case h_2 l ls h =>
        rw [h] at ih
        simp_all

theorem lines_eq_nil : lines sep text = [] ↔ text = [] := by
  constructor
  · intro h
    rw [← flatten_lines sep text, h, List.flatten_nil]
  · rintro rfl
    rfl

theorem exists_lines (sep : α) (h : text ≠ []) : ∃ l ls, lines sep text = l :: ls :=
  List.exists_cons_of_ne_nil (mt lines_eq_nil.mp h)

theorem lines_cases {c : α} (h : lines sep (c :: text) = l :: ls) :
    (c = sep ∧ l = [c] ∧ ls = lines sep text) ∨ (c ≠ sep ∧ text = [] ∧ l = [c] ∧ ls = []) ∨
      (c ≠ sep ∧ ∃ l', lines sep text = l' :: ls ∧ l = c :: l') := by
  rw [lines] at h
  split at h
  case isTrue hc =>
    obtain ⟨rfl, rfl⟩ := List.cons.inj h
    exact Or.inl ⟨hc, rfl, rfl⟩
  case isFalse hc =>
    split at h
    case h_1 hnil =>
      obtain ⟨rfl, rfl⟩ := List.cons.inj h
      exact Or.inr (Or.inl ⟨hc, lines_eq_nil.mp hnil, rfl, rfl⟩)
    case h_2 l' ls' hcons =>
      obtain ⟨rfl, rfl⟩ := List.cons.inj h
      exact Or.inr (Or.inr ⟨hc, l', hcons, rfl⟩)

theorem lines_append {b : List α} (hb : sep ∉ b) (text : List α) :
    lines sep (b ++ sep :: text) = (b ++ [sep]) :: lines sep text := by
  induction b with
  | nil => simp [lines]
  | cons c b ih =>
    have hc : c ≠ sep := fun h => hb (h ▸ List.mem_cons_self)
    rw [List.cons_append, lines, if_neg hc, ih fun h => hb (List.mem_cons_of_mem _ h)]
    rfl

theorem lines_flatten (h : ∀ l ∈ ls, ∃ b, sep ∉ b ∧ l = b ++ [sep]) :
    lines sep ls.flatten = ls := by
  induction ls with
  | nil => rfl
  | cons l ls ih =>
    obtain ⟨⟨b, hb, rfl⟩, hls⟩ := List.forall_mem_cons.mp h
    rw [List.flatten_cons, List.append_assoc, List.singleton_append, lines_append hb, ih hls]

end Lines

section Gets

/-- A read takes the first line as far as there is room. -/
theorem gets_of_lines (h : lines sep text = l :: ls) (room : ℕ) :
    gets sep room text = (l.take room, l.drop room ++ ls.flatten) := by
  induction text generalizing l ls room with
  | nil => simp [lines] at h
  | cons c text ih =>
    have hflat : l ++ ls.flatten = c :: text := by
      rw [← List.flatten_cons, ← h, flatten_lines]
    cases room with
    | zero => rw [gets, List.take_zero, List.drop_zero, hflat]
    | succ room =>
      rw [gets]
      rcases lines_cases h with ⟨hc, rfl, rfl⟩ | ⟨hc, rfl, rfl, rfl⟩ | ⟨hc, l, hl, rfl⟩
      · rw [if_pos hc, flatten_lines]
        simp
      · rw [if_neg hc]
        cases room <;> simp [gets]
      · rw [if_neg hc, ih hl]
        simp

theorem lines_gets (h : lines sep text = l :: ls) (room : ℕ) :
    lines sep (gets sep room text).2 =
      if l.length ≤ room then ls else l.drop room :: ls := by
  induction text generalizing l ls room with
  | nil => simp [lines] at h
  | cons c text ih =>
    cases room with
    | zero =>
      have hl : l ≠ [] := fun hl => nil_notMem_lines sep (c :: text) (by rw [h, hl]; simp)
      rw [gets, h, if_neg, List.drop_zero]
      simpa using hl
    | succ room =>
      rw [gets]
      rcases lines_cases h with ⟨hc, rfl, rfl⟩ | ⟨hc, rfl, rfl, rfl⟩ | ⟨hc, l, hl, rfl⟩
      · rw [if_pos hc, if_pos (by simp)]
      · rw [if_neg hc]
        cases room <;> simp [gets, lines]
      · rw [if_neg hc, ih hl]
        simp

theorem gets_append (sep : α) (room : ℕ) (text : List α) :
    (gets sep room text).1 ++ (gets sep room text).2 = text := by
  by_cases ht : text = []
  · subst ht
    cases room <;> rfl
  · obtain ⟨l, ls, h⟩ := exists_lines sep ht
    rw [gets_of_lines h, ← List.append_assoc, List.take_append_drop, ← List.flatten_cons, ← h,
      flatten_lines]

theorem gets_ne_nil (sep : α) (hroom : 0 < room) (ht : text ≠ []) : (gets sep room text).1 ≠ [] := by
  obtain ⟨l, ls, h⟩ := exists_lines sep ht
  have hl : l ≠ [] := fun hl => nil_notMem_lines sep text (by rw [h, hl]; simp)
  rw [gets_of_lines h]
  simpa [List.take_eq_nil_iff, Nat.pos_iff_ne_zero.mp hroom] using hl

theorem gets_append_sep {b : List α} (hb : sep ∉ b) (rest : List α) (room : ℕ) :
    gets sep room (b ++ sep :: rest) =
      if b.length < room then (b ++ [sep], rest)
      else (b.take room, b.drop room ++ sep :: rest) := by
  rw [gets_of_lines (lines_append hb rest), flatten_lines]
  split
  case isTrue h =>
    have hle : (b ++ [sep]).length ≤ room := by
      rw [List.length_append]
      exact h
    rw [List.take_of_length_le hle, List.drop_eq_nil_of_le hle, List.nil_append]
  case isFalse h =>
    have hle : room ≤ b.length := Nat.le_of_not_lt h
    rw [List.take_append_of_le_length hle, List.drop_append_of_le_length hle, List.append_assoc,
      List.singleton_append]

theorem length_gets_le (sep : α) (room : ℕ) (text : List α) : (gets sep room text).1.length ≤ room := by
  by_cases ht : text = []
  · subst ht
    cases room <;> simp [gets]
  · obtain ⟨l, ls, h⟩ := exists_lines sep ht
    rw [gets_of_lines h]
    exact List.length_take_le room l

theorem gets_sep_last {a b : List α} (h : (gets sep room text).1 = a ++ sep :: b) : b = [] := by
  induction room generalizing text a with
  | zero => simp [gets] at h
  | succ room ih =>
    cases text with
    | nil => simp [gets] at h
    | cons c text =>
      rw [gets] at h
      split at h
      case isTrue hc =>
        have hlen := congrArg List.length h
        simp only [List.length_append, List.length_cons, List.length_nil] at hlen
        exact List.length_eq_zero_iff.mp (by omega)
      case isFalse hc =>
        cases a with
        | nil => exact absurd (List.cons.inj h).1 hc
        | cons d a => exact ih (List.cons.inj h).2

theorem gets_eq_iff {b : List α} : (gets sep room text).1 = b ++ [sep] ↔
    ∃ rest, text = b ++ sep :: rest ∧ sep ∉ b ∧ b.length < room := by
  constructor
  · intro h
    refine ⟨(gets sep room text).2, ?_, ?_, ?_⟩
    · conv_lhs => rw [← gets_append sep room text, h, List.append_assoc, List.singleton_append]
    · intro hmem
      obtain ⟨x, y, rfl⟩ := List.append_of_mem hmem
      rw [List.append_assoc, List.cons_append] at h
      simpa using gets_sep_last h
    · have hlen := length_gets_le sep room text
      rwa [h, List.length_append] at hlen
  · rintro ⟨rest, rfl, hb, hlt⟩
    rw [gets_append_sep hb, if_pos hlt]

theorem length_gets_lt (sep : α) (hroom : 0 < room) (ht : text ≠ []) :
    (gets sep room text).2.length < text.length := by
  have hlen := congrArg List.length (gets_append sep room text)
  have hpos := List.length_pos_of_ne_nil (gets_ne_nil sep hroom ht)
  rw [List.length_append] at hlen
  omega

end Gets

section Pieces

theorem reads_eq (hroom : 0 < room) (h : text.length ≤ fuel) :
    reads sep room fuel text = pieces sep room text := by
  rw [pieces]
  induction fuel using Nat.strongRecOn generalizing text with
  | ind fuel ih =>
    cases fuel with
    | zero =>
      rw [List.length_eq_zero_iff.mp (Nat.le_zero.mp h)]
      rfl
    | succ fuel =>
      by_cases ht : text = []
      · subst ht
        rfl
      · have hlt := length_gets_lt sep hroom ht
        obtain ⟨n, hn⟩ := Nat.exists_eq_succ_of_ne_zero (by omega : text.length ≠ 0)
        rw [hn, reads, reads, if_neg ht, if_neg ht, ih fuel (by omega) (by omega),
          ih n (by omega) (by omega)]

theorem pieces_of_ne_nil (hroom : 0 < room) (ht : text ≠ []) : pieces sep room text =
    (gets sep room text).1 :: pieces sep room (gets sep room text).2 := by
  have hlt := length_gets_lt sep hroom ht
  obtain ⟨n, hn⟩ := Nat.exists_eq_succ_of_ne_zero (by omega : text.length ≠ 0)
  rw [pieces, hn, reads, if_neg ht, reads_eq hroom (by omega)]

/-- Induction over the reads of a text. -/
theorem gets_induction {P : List α → Prop} (sep : α) (hroom : 0 < room) (hnil : P [])
    (hread : ∀ text, text ≠ [] → P (gets sep room text).2 → P text) (text : List α) : P text := by
  induction h : text.length using Nat.strongRecOn generalizing text with
  | ind n ih =>
    by_cases ht : text = []
    · rwa [ht]
    · exact hread text ht (ih _ (h ▸ length_gets_lt sep hroom ht) _ rfl)

theorem flatten_pieces (hroom : 0 < room) (text : List α) :
    (pieces sep room text).flatten = text := by
  induction text using gets_induction sep hroom with
  | hnil => rfl
  | hread text ht ih => rw [pieces_of_ne_nil hroom ht, List.flatten_cons, ih, gets_append]

theorem gets_drop_pieces (sep : α) (hroom : 0 < room) (k : ℕ) (text : List α) :
    gets sep room ((pieces sep room text).drop k).flatten =
      ((pieces sep room text)[k]?.getD [], ((pieces sep room text).drop (k + 1)).flatten) := by
  induction k generalizing text with
  | zero =>
    rw [List.drop_zero, flatten_pieces hroom]
    by_cases ht : text = []
    · subst ht
      cases room <;> simp [gets, pieces, reads]
    · rw [pieces_of_ne_nil hroom ht, Nat.zero_add, List.drop_one, List.tail_cons,
        flatten_pieces hroom]
      rfl
  | succ k ih =>
    by_cases ht : text = []
    · subst ht
      cases room <;> simp [gets, pieces, reads]
    · rw [pieces_of_ne_nil hroom ht, List.drop_succ_cons, ih, List.getElem?_cons_succ,
        List.drop_succ_cons]

theorem pieces_of_lines (hroom : 0 < room) (h : lines sep text = l :: ls) :
    ∃ rest, pieces sep room text = l.take room :: pieces sep room rest ∧
      lines sep rest = if l.length ≤ room then ls else l.drop room :: ls := by
  have ht : text ≠ [] := by
    rintro rfl
    simp [lines] at h
  refine ⟨(gets sep room text).2, ?_, lines_gets h room⟩
  rw [pieces_of_ne_nil hroom ht, gets_of_lines h]

theorem take_pieces (hroom : 0 < room) (h : ∀ l ∈ (lines sep text).take k, l.length ≤ room) :
    (pieces sep room text).take k = (lines sep text).take k := by
  induction k generalizing text with
  | zero => simp
  | succ k ih =>
    by_cases ht : text = []
    · subst ht
      rfl
    · obtain ⟨l, ls, hl⟩ := exists_lines sep ht
      obtain ⟨rest, hp, hrest⟩ := pieces_of_lines hroom hl
      rw [hl, List.take_succ_cons, List.forall_mem_cons] at h
      rw [if_pos h.1] at hrest
      rw [hp, hl, List.take_succ_cons, List.take_succ_cons, ih (by rw [hrest]; exact h.2), hrest,
        List.take_of_length_le h.1]

/-- Reads never get ahead of the lines, and they fall behind with a line that does not fit. -/
theorem length_drop_pieces (hroom : 0 < room) (hk : k ≤ (lines sep text).length) :
    ((lines sep text).drop k).flatten.length ≤ ((pieces sep room text).drop k).flatten.length ∧
      ((∃ l ∈ (lines sep text).take k, room < l.length) →
        ((lines sep text).drop k).flatten.length <
          ((pieces sep room text).drop k).flatten.length) := by
  induction k generalizing text with
  | zero => simp [flatten_lines, flatten_pieces hroom]
  | succ k ih =>
    obtain ⟨l, ls, hl⟩ : ∃ l ls, lines sep text = l :: ls :=
      List.exists_cons_of_length_pos (by omega)
    obtain ⟨rest, hp, hrest⟩ := pieces_of_lines hroom hl
    rw [hl, List.length_cons, Nat.add_le_add_iff_right] at hk
    rw [hl, hp, List.drop_succ_cons, List.drop_succ_cons, List.take_succ_cons]
    by_cases hfit : l.length ≤ room
    · rw [if_pos hfit] at hrest
      have hih := @ih rest (by rwa [hrest])
      rw [hrest] at hih
      refine ⟨hih.1, ?_⟩
      rintro ⟨l', hl', hlt⟩
      rcases List.mem_cons.mp hl' with rfl | hmem
      · omega
      · exact hih.2 ⟨l', hmem, hlt⟩
    · rw [if_neg hfit] at hrest
      have hih := (@ih rest (by rw [hrest, List.length_cons]; omega)).1
      have hlt : (ls.drop k).flatten.length < ((l.drop room :: ls).drop k).flatten.length := by
        have hk' : k < (l.drop room :: ls).length := by
          rw [List.length_cons]
          omega
        have hne : (l.drop room :: ls)[k] ≠ [] := by
          intro hnil
          apply nil_notMem_lines sep rest
          rw [hrest, ← hnil]
          exact List.getElem_mem hk'
        rw [List.drop_eq_getElem_cons hk', List.drop_succ_cons, List.flatten_cons,
          List.length_append]
        have := List.length_pos_of_ne_nil hne
        omega
      rw [hrest] at hih
      exact ⟨by omega, fun _ => by omega⟩

theorem flatten_drop_pieces_iff (hroom : 0 < room) (hk : k ≤ (lines sep text).length) :
    ((pieces sep room text).drop k).flatten = ((lines sep text).drop k).flatten ↔
      ∀ l ∈ (lines sep text).take k, l.length ≤ room := by
  constructor
  · intro h l hl
    by_contra hlong
    have := (length_drop_pieces hroom hk).2 ⟨l, hl, by omega⟩
    rw [h] at this
    omega
  · intro h
    have htext : ((pieces sep room text).take k).flatten ++ ((pieces sep room text).drop k).flatten =
        ((lines sep text).take k).flatten ++ ((lines sep text).drop k).flatten := by
      rw [← List.flatten_append, ← List.flatten_append, List.take_append_drop,
        List.take_append_drop, flatten_pieces hroom, flatten_lines]
    rw [take_pieces hroom h] at htext
    exact List.append_cancel_left htext

/-- A word starts at least as many pieces as lines, and more if it starts a continuation. -/
theorem countP_pieces (sep : α) (hroom : 0 < room) (hw : word ≠ []) (hlen : word.length ≤ room)
    (text : List α) :
    (lines sep text).countP (word <+: ·) ≤ (pieces sep room text).countP (word <+: ·) ∧
      ((pieces sep room text).countP (word <+: ·) = (lines sep text).countP (word <+: ·) ↔
        ∀ l ∈ lines sep text, NotCut room word l) := by
  induction text using gets_induction sep hroom with
  | hnil => simp [lines, pieces, reads]
  | hread text ht ih =>
    obtain ⟨l, ls, hl⟩ := exists_lines sep ht
    have hrest := lines_gets hl room
    have htake : (gets sep room text).1 = l.take room := congrArg Prod.fst (gets_of_lines hl room)
    obtain ⟨hle, hiff⟩ := ih
    have hhead : word <+: l.take room ↔ word <+: l := by
      rw [List.prefix_take_iff, and_iff_left hlen]
    rw [hl, pieces_of_ne_nil hroom ht, htake, List.countP_cons, List.countP_cons,
      List.forall_mem_cons]
    simp only [hhead, Nat.add_le_add_iff_right, Nat.add_right_cancel_iff]
    by_cases hfit : l.length ≤ room
    · rw [if_pos hfit] at hrest
      rw [hrest] at hle hiff
      exact ⟨hle, hiff.trans (and_iff_right (notCut_of_le hw hfit)).symm⟩
    · rw [if_neg hfit] at hrest
      rw [hrest, List.countP_cons] at hle hiff
      rw [List.forall_mem_cons] at hiff
      rw [notCut_drop]
      by_cases hcut : word <+: l.drop room
      · simp only [hcut, decide_true, if_true] at hle
        refine ⟨by omega, iff_of_false (by omega) ?_⟩
        rintro ⟨⟨hnot, -⟩, -⟩
        exact hnot hcut
      · simp only [hcut, decide_false, Bool.false_eq_true, if_false, Nat.add_zero] at hle hiff
        refine ⟨hle, ?_⟩
        rw [hiff, and_iff_right hcut]

end Pieces

end OperatingSystem.Lines
