import Mathlib.Data.List.Basic
import OperatingSystem.Libc

/-! # The reference string loader

The loop of `simulator.c` that reads the input file. It ends only at the end of the file
and has no test of the capacity, so it leaves `page_reference` after too many integers,
and after a token that is no number, which `fscanf` never consumes.
-/

namespace OperatingSystem.Simulator

open Libc

abbrev pageReferenceSize : ℕ := 31

/-- The digits at the head of a text as a number, with what is left of the text. -/
def scanDigits (text : List Char) : Option (ℕ × List Char) :=
  if text.takeWhile Char.isDigit = [] then none
  else some (digits 0 text, text.dropWhile Char.isDigit)

/-- The number that `%d` finds at the head of a token. -/
def scanNumber : List Char → Option (ℤ × List Char)
  | '-' :: text => (scanDigits text).map fun (n, rest) => (-n, rest)
  | '+' :: text => (scanDigits text).map fun (n, rest) => (n, rest)
  | text => (scanDigits text).map fun (n, rest) => (n, rest)

/-- The outcomes of `fscanf` with `%d`, on the tokens that are left. -/
inductive Fscanf where
  | eof
  | mismatch
  | value (n : ℤ) (file : List (List Char))
  deriving DecidableEq

def fscanf : List (List Char) → Fscanf
  | [] => .eof
  | token :: file =>
    match scanNumber token with
    | none => .mismatch
    | some (n, []) => .value n file
    | some (n, c :: rest) => .value n ((c :: rest) :: file)

/-- The `int` that `%d` stores. -/
def stored (n : ℤ) : ℤ := (toInt n).toInt

/-- The loop with room for so many more references: the references that it stores, and no result
where it stores one outside of `page_reference`. Without a match `temp` is stored again. -/
def load (temp : ℤ) (file : List (List Char)) : ℕ → Option (List ℤ)
  | 0 =>
    match fscanf file with
    | .eof => some []
    | _ => none
  | room + 1 =>
    match fscanf file with
    | .eof => some []
    | .mismatch => (load temp file room).map (temp :: ·)
    | .value n file => (load (stored n) file room).map (stored n :: ·)

/-- `frame_size` and the reference string. Without a match `frame_size` keeps its value, too. -/
def loadFile (frameSize temp : ℤ) (file : List (List Char)) : Option (ℤ × List ℤ) :=
  match fscanf file with
  | .value n rest => (load temp rest pageReferenceSize).map (stored n, ·)
  | _ => (load temp file pageReferenceSize).map (frameSize, ·)

def integer (token : List Char) : Option ℤ :=
  match scanNumber token with
  | some (n, []) => some n
  | _ => none

def integers (file : List (List Char)) : List ℤ := file.filterMap integer

/-- A token that is an integer in the range of `int`. -/
def IsInt (token : List Char) : Prop :=
  ∃ n, integer token = some n ∧ -2 ^ 31 ≤ n ∧ n < 2 ^ 31

variable {file : List (List Char)} {token : List Char} {refs : List ℤ} {temp n : ℤ} {room : ℕ}

theorem stored_eq_iff (n : ℤ) : stored n = n ↔ -2 ^ 31 ≤ n ∧ n < 2 ^ 31 := by
  constructor
  · intro h
    have hlow := BitVec.le_toInt (toInt n)
    have hhigh := BitVec.toInt_lt (x := toInt n)
    rw [← h]
    exact ⟨hlow, hhigh⟩
  · rintro ⟨hlow, hhigh⟩
    have hclamp : max (-2 ^ 63) (min n (2 ^ 63 - 1)) = n := by omega
    rw [stored, toInt, hclamp, BitVec.toInt_ofInt]
    exact Int.bmod_eq_of_le (by omega) (by omega)

section Scan

theorem fscanf_integer (h : integer token = some n) : fscanf (token :: file) = .value n file := by
  unfold integer at h
  split at h
  case h_1 m hscan =>
    obtain rfl := Option.some.inj h
    simp [fscanf, hscan]
  case h_2 => contradiction

/-- A value comes from the first token, which it consumes only if that is an integer. -/
theorem fscanf_value {rest : List (List Char)} (h : fscanf file = .value n rest) :
    ∃ token after, file = token :: after ∧
      (integer token = some n ∧ rest = after ∨ ∃ left, rest = left :: after) := by
  rcases file with - | ⟨token, after⟩
  · contradiction
  · refine ⟨token, after, rfl, ?_⟩
    rw [fscanf] at h
    split at h
    case h_1 => contradiction
    case h_2 m hscan =>
      obtain ⟨rfl, rfl⟩ := Fscanf.value.inj h
      exact Or.inl ⟨by simp [integer, hscan], rfl⟩
    case h_3 m c left hscan =>
      obtain ⟨-, rfl⟩ := Fscanf.value.inj h
      exact Or.inr ⟨c :: left, rfl⟩

theorem fscanf_eof (h : fscanf file = .eof) : file = [] := by
  rcases file with - | ⟨token, after⟩
  · rfl
  · rw [fscanf] at h
    split at h <;> contradiction

end Scan

section Loop

/-- A token that does not match is never consumed, so the loop runs out of room. -/
theorem load_mismatch (h : fscanf file = .mismatch) (temp : ℤ) (room : ℕ) :
    load temp file room = none := by
  induction room with
  | zero => simp [load, h]
  | succ room ih => simp [load, h, ih]

theorem load_value {rest : List (List Char)} (h : fscanf file = .value n rest) (temp : ℤ)
    (room : ℕ) :
    load temp file (room + 1) = (load (stored n) rest room).map (stored n :: ·) := by
  rw [load, h]

theorem load_nil (temp : ℤ) (room : ℕ) : load temp [] room = some [] := by
  cases room <;> rfl

theorem load_eof (h : fscanf file = .eof) (hload : load temp file room = some refs) :
    file = [] ∧ refs = [] := by
  obtain rfl := fscanf_eof h
  rw [load_nil] at hload
  exact ⟨rfl, (Option.some.inj hload).symm⟩

theorem load_length (h : load temp file room = some refs) : refs.length ≤ room ∧
    file.length ≤ refs.length ∧ (file.length = refs.length →
      ∃ ns : List ℤ, file.map integer = ns.map some ∧ refs = ns.map stored) := by
  induction room generalizing temp file refs with
  | zero =>
    cases hscan : fscanf file with
    | eof =>
      obtain ⟨rfl, rfl⟩ := load_eof hscan h
      exact ⟨Nat.le_refl 0, Nat.le_refl 0, fun _ => ⟨[], rfl, rfl⟩⟩
    | mismatch => simp [load, hscan] at h
    | value n rest => simp [load, hscan] at h
  | succ room ih =>
    cases hscan : fscanf file with
    | eof =>
      obtain ⟨rfl, rfl⟩ := load_eof hscan h
      exact ⟨Nat.zero_le _, Nat.le_refl 0, fun _ => ⟨[], rfl, rfl⟩⟩
    | mismatch =>
      rw [load_mismatch hscan] at h
      contradiction
    | value n rest =>
      rw [load_value hscan] at h
      obtain ⟨tail, htail, rfl⟩ := Option.map_eq_some_iff.mp h
      obtain ⟨hroom, hle, hall⟩ := ih htail
      obtain ⟨token, after, rfl, ⟨hint, rfl⟩ | ⟨left, rfl⟩⟩ := fscanf_value hscan
      · refine ⟨Nat.succ_le_succ hroom, Nat.succ_le_succ hle, ?_⟩
        intro heq
        obtain ⟨ns, hns, rfl⟩ := hall (Nat.succ.inj heq)
        exact ⟨n :: ns, by rw [List.map_cons, List.map_cons, hint, hns], rfl⟩
      · simp only [List.length_cons] at hle ⊢
        exact ⟨Nat.succ_le_succ hroom, by omega, fun heq => by omega⟩

theorem load_integers {ns : List ℤ} (h : file.map integer = ns.map some) (hroom : ns.length ≤ room)
    (temp : ℤ) : load temp file room = some (ns.map stored) := by
  induction ns generalizing file temp room with
  | nil =>
    obtain rfl := List.map_eq_nil_iff.mp h
    exact load_nil temp room
  | cons n ns ih =>
    rcases file with - | ⟨token, file⟩
    · contradiction
    · obtain ⟨hint, hns⟩ := List.cons.inj h
      cases room with
      | zero => exact absurd hroom (Nat.not_succ_le_zero _)
      | succ room =>
        rw [load_value (fscanf_integer hint), ih hns (Nat.le_of_succ_le_succ hroom)]
        rfl

end Loop

section Integers

theorem map_integer_iff : (∃ ns : List ℤ, file.map integer = ns.map some ∧ ns.map stored = ns) ↔
    ∀ token ∈ file, IsInt token := by
  induction file with
  | nil => exact iff_of_true ⟨[], rfl, rfl⟩ (by simp)
  | cons token file ih =>
    rw [List.forall_mem_cons, ← ih]
    constructor
    · rintro ⟨_ | ⟨n, ns⟩, hns, hstored⟩
      · contradiction
      · obtain ⟨hint, hns⟩ := List.cons.inj hns
        obtain ⟨hn, hstored⟩ := List.cons.inj hstored
        exact ⟨⟨n, hint, (stored_eq_iff n).mp hn⟩, ns, hns, hstored⟩
    · rintro ⟨⟨n, hint, hrange⟩, ns, hns, hstored⟩
      refine ⟨n :: ns, ?_, ?_⟩
      · rw [List.map_cons, List.map_cons, hint, hns]
      · rw [List.map_cons, hstored, (stored_eq_iff n).mpr hrange]

theorem integers_eq {ns : List ℤ} (h : file.map integer = ns.map some) : integers file = ns := by
  have hmap : integers file = (file.map integer).filterMap id := by
    rw [List.filterMap_map]
    rfl
  rw [hmap, h, List.filterMap_map]
  exact List.filterMap_some

theorem length_integers_le (file : List (List Char)) : (integers file).length ≤ file.length :=
  List.length_filterMap_le _ _

end Integers

/-- After a frame size that is read, the loop ends inside the array with the integers of the file if
and only if every token left is an integer in the range of `int` and there are at most 31. -/
theorem loadFile_faithful_iff (frameSize temp : ℤ) {whole : List (List Char)}
    (h : fscanf whole = .value n file) :
    loadFile frameSize temp whole = some (stored n, integers file) ↔
      file.length ≤ pageReferenceSize ∧ ∀ token ∈ file, IsInt token := by
  rw [loadFile, h]
  simp only [Option.map_eq_some_iff, Prod.mk.injEq, true_and, exists_eq_right]
  constructor
  · intro hload
    obtain ⟨hroom, hle, hall⟩ := load_length hload
    have heq : file.length = (integers file).length := Nat.le_antisymm hle (length_integers_le file)
    obtain ⟨ns, hns, hstored⟩ := hall heq
    rw [integers_eq hns] at hstored
    exact ⟨Nat.le_trans (Nat.le_of_eq heq) hroom, map_integer_iff.mp ⟨ns, hns, hstored.symm⟩⟩
  · rintro ⟨hlen, hint⟩
    obtain ⟨ns, hns, hstored⟩ := map_integer_iff.mpr hint
    have hroom : ns.length ≤ pageReferenceSize := by
      have hns' := congrArg List.length hns
      rw [List.length_map, List.length_map] at hns'
      exact Nat.le_trans (Nat.le_of_eq hns'.symm) hlen
    rw [load_integers hns hroom, integers_eq hns, hstored]

/-- Three frames and two references, one of them negative. -/
theorem loadFile_faithful_two :
    loadFile 0 0 [['3'], ['1', '2'], ['-', '7']] = some (3, [12, -7]) := by
  have hint : ∀ token ∈ [['1', '2'], ['-', '7']], IsInt token := by
    intro token htoken
    rcases List.mem_cons.mp htoken with rfl | htoken
    · exact ⟨12, by decide⟩
    · rw [List.mem_singleton.mp htoken]
      exact ⟨-7, by decide⟩
  have hframes : fscanf [['3'], ['1', '2'], ['-', '7']] = .value 3 [['1', '2'], ['-', '7']] := by
    decide
  have h := (loadFile_faithful_iff 0 0 hframes).mpr ⟨by decide, hint⟩
  exact h.trans (by decide)

/-- A token that is no number, and 32 integers. -/
theorem loadFile_outside : loadFile 0 0 [['3'], ['x']] = none ∧
    loadFile 0 0 (['3'] :: List.replicate 32 ['1']) = none ∧
    ¬ ∀ file : List (List Char), loadFile 0 0 (['3'] :: file) = some (3, integers file) := by
  refine ⟨by decide, by decide, ?_⟩
  intro h
  exact absurd (h [['x']]) (by decide)

end OperatingSystem.Simulator
