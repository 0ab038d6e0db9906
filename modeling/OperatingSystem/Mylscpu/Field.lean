import Mathlib.Data.List.TakeWhile
import OperatingSystem.Mylscpu.CpuInfo

/-! # The text of a field

What `mylscpu.c` copies into the arrays of `info` is a part of what one call of `fgets`
took, so it is shorter than the buffer and has a newline at its end or not at all. It has
one exactly when the call took one that neither a NUL nor a colon right before it keeps
from the copy.
-/

namespace OperatingSystem.Mylscpu

open Lines
open Procfs (nul)

/-- A text that is shorter than the buffer and has a newline at its end only. -/
structure Field (a : List Char) : Prop where
  length_lt : a.length < bufferSize
  newline : ∀ x y, a = x ++ '\n' :: y → y = []

/-- A text ends with a newline, which with 33 columns has at most one character before it. -/
def Ends (termWidth : ℕ) (a : List Char) : Prop :=
  ∃ b, a = b ++ ['\n'] ∧ (termWidth = 33 → b.length ≤ 1)

/-- A row whose value ends with a newline: all of a row without a colon, or what follows the second
place after the colon. -/
def RowEnds (termWidth : ℕ) (buf : List Char) : Prop :=
  ∃ v, nul ∉ v ∧ (termWidth = 33 → v.length ≤ 1) ∧
    ((buf = v ++ ['\n'] ∧ ':' ∉ v) ∨
      ∃ key c, ':' ∉ key ∧ nul ∉ key ∧ buf = key ++ ':' :: c :: (v ++ ['\n']))

/-- A row that fills the buffer up to a colon in its last place. -/
def ColonLast (buf : List Char) : Prop :=
  ∃ key, ':' ∉ key ∧ nul ∉ key ∧ key.length + 2 = bufferSize ∧ buf = key ++ [':']

variable {a b buf t file : List Char} {row termWidth : ℕ}

theorem Field.of_part (h : Field b) (hab : a <:+: b) : Field a := by
  obtain ⟨x, y, rfl⟩ := hab
  constructor
  · have := h.length_lt
    rw [List.length_append, List.length_append] at this
    omega
  · rintro u v rfl
    have := h.newline (x ++ u) (v ++ y) (by simp)
    exact (List.append_eq_nil_iff.mp this).1

theorem field_nil : Field [] := ⟨by decide, by simp⟩

theorem field_fgets (fp : List Char) : Field (fgets fp).1 where
  length_lt := Nat.lt_of_le_pred (by decide) (length_gets_le '\n' (bufferSize - 1) fp)
  newline _ _ h := gets_sep_last h

theorem field_bufferAt (file : List Char) (row : ℕ) : Field (bufferAt file row) := by
  have hgets := gets_drop_pieces '\n' (by decide : 0 < bufferSize - 1) (row - 1) file
  have := field_fgets ((pieces '\n' (bufferSize - 1) file).drop (row - 1)).flatten
  rwa [fgets, hgets] at this

theorem text_isPrefix (a : List Char) : text a <+: a := List.takeWhile_prefix _

theorem nul_notMem_text (a : List Char) : nul ∉ text a := by
  intro h
  have := List.mem_takeWhile_imp h
  simp at this

theorem Field.text (h : Field a) : Field (text a) := h.of_part (text_isPrefix a).isInfix

theorem text_eq_iff (h : Field a) : text a = b ++ ['\n'] ↔ a = b ++ ['\n'] ∧ nul ∉ b := by
  constructor
  · intro heq
    obtain ⟨y, hy⟩ := text_isPrefix a
    rw [heq, List.append_assoc, List.singleton_append] at hy
    have hnil := h.newline b y hy.symm
    subst hnil
    refine ⟨hy.symm, ?_⟩
    have hnul := nul_notMem_text a
    rw [heq] at hnul
    exact fun hb => hnul (List.mem_append_left _ hb)
  · rintro ⟨rfl, hb⟩
    rw [text_append hb]
    rfl

theorem colon_cases (buf : List Char) : ':' ∉ text buf ∨
    ∃ key rest, ':' ∉ key ∧ nul ∉ key ∧ buf = key ++ ':' :: rest := by
  by_cases h : ':' ∈ text buf
  · obtain ⟨key, rest, hkey, hcolon⟩ := List.eq_append_cons_of_mem h
    obtain ⟨y, hy⟩ := text_isPrefix buf
    have hnul := nul_notMem_text buf
    rw [hkey] at hnul hy
    refine Or.inr ⟨key, rest ++ y, hcolon, fun hmem => hnul (List.mem_append_left _ hmem), ?_⟩
    rw [← hy, List.append_assoc, List.cons_append]
  · exact Or.inl h

theorem drop_one_part (key rest : List Char) : rest.drop 1 <:+: key ++ ':' :: rest :=
  ((List.drop_suffix 1 rest).trans
    ((List.suffix_cons ':' rest).trans (List.suffix_append key _))).isInfix

theorem value_colonLast (h : ColonLast buf) : value buf = .error .outside := by
  obtain ⟨key, hcolon, hnul, hlen, rfl⟩ := h
  rw [value_append hcolon hnul, if_neg (by omega)]

/-- The value is a part of the row, unless the colon is so late that the pointer leaves `buf`. -/
theorem value_cases (h : Field buf) :
    (∃ t, value buf = .ok t ∧ t <:+: buf) ∨ ColonLast buf := by
  rcases colon_cases buf with hcolon | ⟨key, rest, hcolon, hnul, rfl⟩
  · exact Or.inl ⟨_, value_of_notMem hcolon, (text_isPrefix buf).isInfix⟩
  · have hlen := h.length_lt
    rw [List.length_append, List.length_cons] at hlen
    by_cases hlt : key.length + 2 < bufferSize
    · refine Or.inl ⟨_, ?_, (text_isPrefix _).isInfix.trans (drop_one_part key rest)⟩
      rw [value_append hcolon hnul, if_pos hlt]
    · obtain rfl : rest = [] := List.length_eq_zero_iff.mp (by omega)
      exact Or.inr ⟨key, hcolon, hnul, by omega, rfl⟩

theorem value_ok_iff (h : Field buf) : (∃ t, value buf = .ok t) ↔ ¬ ColonLast buf := by
  constructor
  · rintro ⟨t, ht⟩ hlast
    rw [value_colonLast hlast] at ht
    cases ht
  · intro hlast
    rcases value_cases h with ⟨t, ht, -⟩ | hcolon
    · exact ⟨t, ht⟩
    · exact absurd hcolon hlast

theorem field_value (h : Field buf) (ht : value buf = .ok t) : Field t := by
  rcases value_cases h with ⟨t', ht', hpart⟩ | hlast
  · rw [ht] at ht'
    injection ht' with ht'
    subst ht'
    exact h.of_part hpart
  · rw [value_colonLast hlast] at ht
    cases ht

theorem value_ends_iff (h : Field buf) :
    (∃ t, value buf = .ok t ∧ Ends termWidth t) ↔ RowEnds termWidth buf := by
  constructor
  · rintro ⟨t, ht, v, rfl, hwidth⟩
    rcases colon_cases buf with hcolon | ⟨key, rest, hcolon, hnul, rfl⟩
    · rw [value_of_notMem hcolon] at ht
      injection ht with ht
      obtain ⟨rfl, hv⟩ := (text_eq_iff h).mp ht
      rw [ht] at hcolon
      exact ⟨v, hv, hwidth, Or.inl ⟨rfl, fun hmem => hcolon (List.mem_append_left _ hmem)⟩⟩
    · rw [value_append hcolon hnul] at ht
      split at ht
      case isTrue hlt =>
        injection ht with ht
        have hrest : Field (rest.drop 1) := h.of_part (drop_one_part key rest)
        obtain ⟨hdrop, hv⟩ := (text_eq_iff hrest).mp ht
        cases rest with
        | nil => simp at hdrop
        | cons c rest =>
          refine ⟨v, hv, hwidth, Or.inr ⟨key, c, hcolon, hnul, ?_⟩⟩
          rw [← hdrop]
          rfl
      case isFalse => cases ht
  · rintro ⟨v, hv, hwidth, ⟨rfl, hcolon⟩ | ⟨key, c, hcolon, hnul, rfl⟩⟩
    · have htext := (text_eq_iff h).mpr ⟨rfl, hv⟩
      refine ⟨_, value_of_notMem ?_, v, htext, hwidth⟩
      rw [htext]
      simpa using hcolon
    · have hlen := h.length_lt
      rw [List.length_append, List.length_cons, List.length_cons] at hlen
      have hend : Field (v ++ ['\n']) := h.of_part (drop_one_part key (c :: (v ++ ['\n'])))
      refine ⟨_, ?_, v, (text_eq_iff hend).mpr ⟨rfl, hv⟩, hwidth⟩
      rw [value_append hcolon hnul, if_pos (by omega)]
      rfl

end OperatingSystem.Mylscpu
