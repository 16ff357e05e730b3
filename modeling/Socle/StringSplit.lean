-- `string_split` (common/display.cpp), for texts of characters and of bytes. Its
-- pieces are what `List.splitOn` gives, without an empty one at the end.
import Mathlib.Tactic

namespace socle.display.delimited

variable {α : Type} [DecidableEq α]

/-- The `getline` loop of `string_split`, with the characters of the piece that is read. A piece
that begins at the end of the text is none. -/
def split_from (delimiter : α) (tok : List α) : List α → List (List α)
  | [] => if tok = [] then [] else [tok]
  | c :: rest =>
    if c = delimiter then tok :: split_from delimiter [] rest
    else split_from delimiter (tok ++ [c]) rest

def string_split (delimiter : α) (str : List α) : List (List α) :=
  split_from delimiter [] str

/-! ## The pieces as a list -/

variable {d : α}

/-- The pieces between delimiters, without an empty one at the end. -/
def trimmed (l : List (List α)) : List (List α) :=
  if l.getLast? = some [] then l.dropLast else l

theorem trimmed_cons {l : List (List α)} (tok : List α) (h : l ≠ []) :
    trimmed (tok :: l) = tok :: trimmed l := by
  obtain ⟨x, rest, rfl⟩ := List.exists_cons_of_ne_nil h
  unfold trimmed
  rw [List.getLast?_cons_cons]
  split
  · rfl
  · rfl

theorem split_from_eq (tok s : List α) :
    split_from d tok s = trimmed ((s.splitOn d).modifyHead (tok ++ ·)) := by
  induction s generalizing tok with
  | nil =>
    unfold trimmed
    by_cases ht : tok = [] <;> simp [split_from, ht]
  | cons c rest ih =>
    have hne : rest.splitOn d ≠ [] := List.splitOn_ne_nil d rest
    rw [split_from, ih, ih, List.splitOn_cons_eq_if_modifyHead]
    by_cases hc : c = d
    · rw [if_pos hc, if_pos (beq_iff_eq.mpr hc), List.modifyHead_cons, List.append_nil]
      have hid : (rest.splitOn d).modifyHead ([] ++ ·) = rest.splitOn d := by
        cases rest.splitOn d <;> rfl
      rw [hid]
      exact (trimmed_cons tok hne).symm
    · rw [if_neg hc, if_neg (by simpa using hc), List.modifyHead_modifyHead]
      congr 2
      funext x
      simp

theorem string_split_eq (s : List α) : string_split d s = trimmed (s.splitOn d) := by
  have heq := split_from_eq (d := d) [] s
  have hid : (s.splitOn d).modifyHead ([] ++ ·) = s.splitOn d := by
    cases s.splitOn d <;> rfl
  rwa [hid] at heq

/-- No piece has a delimiter. -/
theorem splitOn_free (s : List α) : ∀ x ∈ s.splitOn d, d ∉ x := by
  induction s with
  | nil => simp
  | cons c rest ih =>
    rw [List.splitOn_cons_eq_if_modifyHead]
    by_cases hc : c = d
    · rw [if_pos (beq_iff_eq.mpr hc)]
      intro x hx
      rcases List.mem_cons.mp hx with rfl | hx
      · exact List.not_mem_nil
      · exact ih x hx
    · rw [if_neg (by simpa using hc)]
      obtain ⟨y, l, hl⟩ := List.exists_cons_of_ne_nil (List.splitOn_ne_nil d rest)
      rw [hl] at ih
      rw [hl, List.modifyHead_cons]
      intro x hx
      rcases List.mem_cons.mp hx with rfl | hx
      · intro hd
        rcases List.mem_cons.mp hd with rfl | hd
        · exact hc rfl
        · exact ih y List.mem_cons_self hd
      · exact ih x (List.mem_cons_of_mem y hx)

theorem mem_trimmed {l : List (List α)} {x : List α} (h : x ∈ trimmed l) : x ∈ l := by
  unfold trimmed at h
  split at h
  · exact List.mem_of_mem_dropLast h
  · exact h

theorem trimmed_eq_iff (l : List (List α)) : trimmed l = l ↔ l.getLast? ≠ some [] := by
  unfold trimmed
  split
  · next h =>
    have hne : l ≠ [] := by
      rintro rfl
      cases h
    have hlength : l.dropLast.length ≠ l.length := by
      rw [List.length_dropLast]
      have hpos := List.length_pos_of_ne_nil hne
      omega
    constructor
    · intro heq
      exact absurd (congrArg List.length heq) hlength
    · exact fun hn => absurd h hn
  · next h => exact ⟨fun _ => h, fun _ => rfl⟩

/-! ## One piece -/

end socle.display.delimited
