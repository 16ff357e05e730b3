-- Texts with delimiters (common/display.cpp): `string_csv` writes a list with a
-- delimiter in between, `string_split` takes it apart, and `version_check` compares
-- what was between dots.
import Socle.StringSplit
import Socle.UrlParts

namespace socle.display.delimited

open lib.text
open socle.inet (stoi stoi_error)

/-! ## Model -/

abbrev text := List Char

/-- The loop of `string_csv`. Its index is an `unsigned int`, so a list has less than 2^32 texts. -/
def string_csv (delim : Char) : List text → text
  | [] => []
  | [s] => s
  | s :: t :: rest => s ++ delim :: string_csv delim (t :: rest)

/-- The loop of `version_check`. What is no number ends it, and a number that is too large throws. -/
def version_loop : List text → List text → Except stoi_error Bool
  | r :: real_ver, t :: target_ver =>
    let both : Except stoi_error (Int × Int) := do
      let real_int ← stoi r
      let target_int ← stoi t
      pure (real_int, target_int)
    match both with
    | .error .invalid_argument => .ok true
    | .error .out_of_range => .error .out_of_range
    | .ok (real_int, target_int) =>
      if real_int < target_int then .ok false
      else if real_int > target_int then .ok true
      else version_loop real_ver target_ver
  | _, _ => .ok true

def version_check (real_string v : text) : Except stoi_error Bool :=
  version_loop (string_split '.' real_string) (string_split '.' v)

/-! ## Lists that are written and taken apart -/

variable {d : Char}

theorem string_csv_eq (l : List text) : string_csv d l = [d].intercalate l := by
  induction l with
  | nil => rfl
  | cons s rest ih =>
    cases rest with
    | nil => simp [string_csv, List.intercalate]
    | cons t rest =>
      rw [string_csv, ih]
      simp [List.intercalate]

/-- A list that is written is read again, if and only if no text of it has the delimiter, and the
last one is not empty. -/
theorem split_csv_iff (l : List text) :
    string_split d (string_csv d l) = l ↔ (∀ s ∈ l, d ∉ s) ∧ l.getLast? ≠ some [] := by
  rw [string_split_eq, string_csv_eq]
  constructor
  · intro h
    have hfree : ∀ s ∈ l, d ∉ s := by
      intro s hs
      rw [← h] at hs
      exact splitOn_free _ s (mem_trimmed hs)
    refine ⟨hfree, ?_⟩
    by_cases hl : l = []
    · rw [hl]
      exact fun hn => by cases hn
    · rw [List.splitOn_intercalate d hfree hl] at h
      exact (trimmed_eq_iff l).mp h
  · rintro ⟨hfree, hlast⟩
    by_cases hl : l = []
    · rw [hl]
      rfl
    · rw [List.splitOn_intercalate d hfree hl]
      exact (trimmed_eq_iff l).mpr hlast

theorem split_from_nil_iff (tok s : text) : split_from d tok s = [] ↔ tok = [] ∧ s = [] := by
  induction s generalizing tok with
  | nil => by_cases ht : tok = [] <;> simp [split_from, ht]
  | cons c rest ih =>
    rw [split_from]
    split
    · simp
    · rw [ih]
      simp

theorem csv_split_from (tok s : text) :
    string_csv d (split_from d tok s) = tok ++ s ↔ s.getLast? ≠ some d := by
  induction s generalizing tok with
  | nil =>
    by_cases ht : tok = []
    · simp [split_from, ht, string_csv]
    · simp [split_from, ht, string_csv]
  | cons c rest ih =>
    rw [split_from]
    split
    · next hc =>
      subst hc
      cases rest with
      | nil => simp [split_from, string_csv]
      | cons e rest =>
        obtain ⟨t, l, hl⟩ := List.exists_cons_of_ne_nil
          (fun h => List.cons_ne_nil e rest ((split_from_nil_iff (d := c) [] (e :: rest)).mp h).2)
        have hrest := ih []
        rw [hl, List.nil_append] at hrest
        rw [hl, string_csv, List.append_cancel_left_eq, List.cons.injEq, List.getLast?_cons_cons]
        simpa using hrest
    · next hc =>
      have hrest := ih (tok ++ [c])
      rw [List.append_assoc, List.singleton_append] at hrest
      rw [hrest]
      cases rest with
      | nil => simpa using hc
      | cons e rest => rw [List.getLast?_cons_cons]

/-- A text that is taken apart is written again, if and only if it does not end with the
delimiter. -/
theorem csv_split_iff (s : text) :
    string_csv d (string_split d s) = s ↔ s.getLast? ≠ some d :=
  csv_split_from [] s

/-! ## Versions -/

/-- A version as it is written. -/
def dotted (ver : List Nat) : text :=
  string_csv '.' (ver.map (Nat.toDigits 10))

theorem decimal_digits (n : Nat) : decimal (Nat.toDigits 10 n) = n := by
  induction n using Nat.strongRecOn with
  | ind n ih =>
    by_cases hn : n < 10
    · rw [Nat.toDigits_of_lt_base hn]
      simp [decimal, Nat.toNat_digitChar_sub_48_of_lt_ten hn]
    · have hdiv := ih (n / 10) (by omega)
      have hmod : n % 10 < 10 := Nat.mod_lt n (by decide)
      rw [Nat.toDigits_of_base_le (by decide) (by omega)]
      unfold decimal at hdiv ⊢
      rw [List.foldl_append, hdiv, List.foldl_cons, List.foldl_nil,
        Nat.toNat_digitChar_sub_48_of_lt_ten hmod]
      omega

theorem stoi_decimal {n : Nat} (hn : n < 2147483648) :
    stoi (Nat.toDigits 10 n) = .ok (n : Int) := by
  have hdigits : ∀ c ∈ Nat.toDigits 10 n, c.isDigit := fun c hc =>
    Nat.isDigit_of_mem_toDigits (by decide) (by decide) hc
  have hread : strtol (Nat.toDigits 10 n ++ []) = some (decimal (Nat.toDigits 10 n)) :=
    inet.strtol_digits Nat.toDigits_ne_nil hdigits (by simp)
  rw [List.append_nil, decimal_digits] at hread
  have hrange : inet.INT_MIN ≤ (n : Int) ∧ (n : Int) ≤ inet.INT_MAX := by
    unfold inet.INT_MIN inet.INT_MAX
    omega
  unfold stoi
  rw [hread]
  exact if_pos hrange

theorem split_dotted (ver : List Nat) :
    string_split '.' (dotted ver) = ver.map (Nat.toDigits 10) := by
  rw [dotted, split_csv_iff]
  constructor
  · intro s hs
    obtain ⟨n, -, rfl⟩ := List.mem_map.mp hs
    intro hdot
    exact absurd (Nat.isDigit_of_mem_toDigits (by decide) (by decide) hdot) (by decide)
  · rw [List.getLast?_map]
    intro h
    obtain ⟨n, -, hn⟩ := Option.map_eq_some_iff.mp h
    exact Nat.toDigits_ne_nil hn

theorem version_loop_numbers {r t : List Nat} (hr : ∀ n ∈ r, n < 2147483648)
    (ht : ∀ n ∈ t, n < 2147483648) :
    ∃ b, version_loop (r.map (Nat.toDigits 10)) (t.map (Nat.toDigits 10)) = .ok b ∧
      (b = true ↔ ¬ List.Lex (· < ·) (r.take t.length) (t.take r.length)) := by
  induction r generalizing t with
  | nil => exact ⟨true, by cases t <;> rfl, by simp⟩
  | cons a r ih =>
    cases t with
    | nil => exact ⟨true, rfl, by simp⟩
    | cons b t =>
      have ha := stoi_decimal (hr a List.mem_cons_self)
      have hb := stoi_decimal (ht b List.mem_cons_self)
      obtain ⟨rest, heq, hrest⟩ := ih (fun n hn => hr n (List.mem_cons_of_mem a hn))
        (fun n hn => ht n (List.mem_cons_of_mem b hn))
      have hlex : List.Lex (· < ·) ((a :: r).take (b :: t).length) ((b :: t).take (a :: r).length) ↔
          a < b ∨ a = b ∧ List.Lex (· < ·) (r.take t.length) (t.take r.length) := by
        rw [List.length_cons, List.length_cons, List.take_succ_cons, List.take_succ_cons]
        constructor
        · intro h
          cases h with
          | rel h => exact Or.inl h
          | cons h => exact Or.inr ⟨rfl, h⟩
        · rintro (h | ⟨rfl, h⟩)
          · exact List.Lex.rel h
          · exact List.Lex.cons h
      have hstep : version_loop ((a :: r).map (Nat.toDigits 10)) ((b :: t).map (Nat.toDigits 10)) =
          if (a : Int) < b then Except.ok false
          else if (a : Int) > b then Except.ok true
          else version_loop (r.map (Nat.toDigits 10)) (t.map (Nat.toDigits 10)) := by
        rw [List.map_cons, List.map_cons, version_loop, ha, hb]
        rfl
      rw [hstep, hlex]
      rcases lt_trichotomy a b with hlt | rfl | hgt
      · rw [if_pos (by omega)]
        exact ⟨false, rfl, by simp [hlt]⟩
      · rw [if_neg (by omega), if_neg (by omega)]
        refine ⟨rest, heq, ?_⟩
        rw [hrest]
        simp
      · rw [if_neg (by omega), if_pos (by omega)]
        refine ⟨true, rfl, ?_⟩
        simp [not_lt.mpr hgt.le, hgt.ne']

/-- Versions of numbers are compared in the lexicographic order, as far as both of them go. -/
theorem version_check_dotted {r t : List Nat} (hr : ∀ n ∈ r, n < 2147483648)
    (ht : ∀ n ∈ t, n < 2147483648) :
    ∃ b, version_check (dotted r) (dotted t) = .ok b ∧
      (b = true ↔ ¬ List.Lex (· < ·) (r.take t.length) (t.take r.length)) := by
  rw [version_check, split_dotted, split_dotted]
  exact version_loop_numbers hr ht

theorem version_check_dotted_witness :
    ∃ b, version_check (dotted [5, 10, 2]) (dotted [5, 9]) = .ok b ∧
      (b = true ↔ ¬ List.Lex (· < ·) [5, 10] [5, 9]) :=
  version_check_dotted (r := [5, 10, 2]) (t := [5, 9]) (by decide) (by decide)

end socle.display.delimited
