-- Positions in a text, as std::string finds them. A text is a list of characters,
-- and `npos` is `none`.
import Mathlib.Data.List.TakeWhile

namespace lib.text

variable {α : Type}

/-! ## Searches -/

def find [DecidableEq α] (pat : List α) : List α → Option Nat
  | [] => if pat = [] then some 0 else none
  | c :: l => if pat.isPrefixOf (c :: l) then some 0 else (find pat l).map Nat.succ

/-- The first position from `pos` on where `p` holds. -/
def find_from (p : α → Bool) (l : List α) (pos : Nat) : Option Nat :=
  ((l.drop pos).findIdx? p).map fun i => pos + i

def find_first_of [DecidableEq α] (set l : List α) (pos : Nat) : Option Nat :=
  find_from (fun c => decide (c ∈ set)) l pos

def find_first_not_of [DecidableEq α] (set l : List α) (pos : Nat) : Option Nat :=
  find_from (fun c => decide (c ∉ set)) l pos

def substr (l : List α) (pos n : Nat) : List α :=
  (l.drop pos).take n

/-! ## The first occurrence -/

/-- `front` stands before the first `pat`. -/
structure First (pat front l : List α) : Prop where
  found : ∃ rest, l = front ++ pat ++ rest
  first : ∀ front' rest', l = front' ++ pat ++ rest' → front.length ≤ front'.length

variable {pat front l : List α} {p : α → Bool}

theorem First.unique {front' : List α} (h : First pat front l) (h' : First pat front' l) :
    front = front' := by
  obtain ⟨rest, hrest⟩ := h.found
  obtain ⟨rest', hrest'⟩ := h'.found
  have hlen : front.length = front'.length :=
    Nat.le_antisymm (h.first front' rest' hrest') (h'.first front rest hrest)
  rw [hrest, List.append_assoc, List.append_assoc] at hrest'
  exact (List.append_inj hrest' hlen).1

/-- A character in front does not begin an occurrence. -/
theorem First.cons {c : α} (h : First pat front l) (hc : ¬ pat <+: c :: l) :
    First pat (c :: front) (c :: l) := by
  obtain ⟨rest, hrest⟩ := h.found
  refine ⟨⟨rest, by rw [hrest]; rfl⟩, ?_⟩
  rintro (_ | ⟨d, front'⟩) rest' hsplit
  · exact absurd ⟨rest', hsplit.symm⟩ hc
  · obtain ⟨rfl, hl⟩ := List.cons.inj hsplit
    have hle := h.first front' rest' hl
    simp only [List.length_cons]
    omega

theorem First.tail {c d : α} (h : First pat (c :: front) (d :: l)) : First pat front l := by
  obtain ⟨rest, hrest⟩ := h.found
  obtain ⟨rfl, hl⟩ := List.cons.inj hrest
  refine ⟨⟨rest, hl⟩, fun front' rest' hsplit => ?_⟩
  have hle := h.first (d :: front') rest' (by rw [hsplit]; rfl)
  simp only [List.length_cons] at hle
  omega

theorem find_eq_some [DecidableEq α] {i : Nat} :
    find pat l = some i ↔ ∃ front, First pat front l ∧ front.length = i := by
  induction l generalizing i with
  | nil =>
    unfold find
    constructor
    · intro h
      split at h
      next hpat =>
        refine ⟨[], ⟨⟨[], by rw [hpat]; rfl⟩, fun front' _ _ => Nat.zero_le _⟩, ?_⟩
        exact Option.some.inj h
      next => cases h
    · rintro ⟨front, ⟨⟨rest, hrest⟩, -⟩, rfl⟩
      obtain ⟨hfront, -⟩ := List.append_eq_nil_iff.mp hrest.symm
      obtain ⟨rfl, rfl⟩ := List.append_eq_nil_iff.mp hfront
      rfl
  | cons c l ih =>
    unfold find
    by_cases hpat : pat <+: c :: l
    · rw [if_pos (List.isPrefixOf_iff_prefix.mpr hpat)]
      obtain ⟨rest, hrest⟩ := hpat
      have hzero : First pat [] (c :: l) := ⟨⟨rest, hrest.symm⟩, fun _ _ _ => Nat.zero_le _⟩
      constructor
      · intro h
        exact ⟨[], hzero, Option.some.inj h⟩
      · rintro ⟨front, hfront, rfl⟩
        rw [hfront.unique hzero]
        rfl
    · rw [if_neg fun hpre => hpat (List.isPrefixOf_iff_prefix.mp hpre), Option.map_eq_some_iff]
      constructor
      · rintro ⟨j, hj, rfl⟩
        obtain ⟨front, hfront, rfl⟩ := ih.mp hj
        exact ⟨c :: front, hfront.cons hpat, rfl⟩
      · rintro ⟨_ | ⟨d, front⟩, hfront, rfl⟩
        · obtain ⟨rest, hrest⟩ := hfront.found
          exact absurd ⟨rest, hrest.symm⟩ hpat
        · exact ⟨front.length, ih.mpr ⟨front, hfront.tail, rfl⟩, rfl⟩

theorem first_of_find [DecidableEq α] {rest : List α}
    (h : find pat (front ++ pat ++ rest) = some front.length) :
    First pat front (front ++ pat ++ rest) := by
  obtain ⟨front', hfirst, hlen⟩ := find_eq_some.mp h
  obtain ⟨rest', hrest⟩ := hfirst.found
  rw [List.append_assoc, List.append_assoc] at hrest
  have heq : front = front' := (List.append_inj hrest hlen.symm).1
  rw [heq]
  exact heq ▸ hfirst

/-! ## The first of some characters -/

/-- What is passed over is the longest part where `p` fails. -/
theorem findIdx?_eq (p : α → Bool) (l : List α) :
    l.findIdx? p =
      if l.dropWhile (fun c => !p c) = [] then none
      else some (l.takeWhile fun c => !p c).length := by
  induction l with
  | nil => rfl
  | cons c l ih =>
    rw [List.findIdx?_cons, List.dropWhile_cons, List.takeWhile_cons]
    cases hc : p c with
    | true => simp
    | false =>
      rw [ih]
      simp only [Bool.not_false, if_true, Bool.false_eq_true, if_false]
      split <;> simp

theorem find_from_append (p : α → Bool) (front rest : List α) {pos : Nat}
    (hpos : pos = front.length) :
    find_from p (front ++ rest) pos =
      if rest.dropWhile (fun c => !p c) = [] then none
      else some (pos + (rest.takeWhile fun c => !p c).length) := by
  unfold find_from
  rw [hpos, List.drop_left, findIdx?_eq]
  split <;> rfl

theorem substr_append (front middle rest : List α) {pos n : Nat} (hpos : pos = front.length)
    (hn : n = middle.length) : substr (front ++ (middle ++ rest)) pos n = middle := by
  unfold substr
  rw [hpos, hn, List.drop_left, List.take_left]

/-! ## Cuts at a character -/

section
variable [DecidableEq α] (c : α)

theorem find_first_of_one (l : List α) :
    find_first_of [c] l 0 = if c ∈ l then some (l.takeWhile (· ≠ c)).length else none := by
  have hfrom := find_from_append (fun d => decide (d ∈ [c])) [] l rfl
  have hne : (fun d => !decide (d ∈ [c])) = fun d => decide (d ≠ c) := by
    funext d
    simp
  have hmem : l.dropWhile (fun d => decide (d ≠ c)) = [] ↔ c ∉ l := by
    rw [List.dropWhile_eq_nil_iff]
    constructor
    · intro h hc
      exact absurd (h c hc) (by simp)
    · rintro h d hd
      exact decide_eq_true fun heq => h (heq ▸ hd)
  rw [hne, List.nil_append, List.length_nil, Nat.zero_add] at hfrom
  unfold find_first_of
  rw [hfrom]
  by_cases hc : c ∈ l
  · rw [if_pos hc, if_neg (fun hnil => hmem.mp hnil hc)]
  · rw [if_neg hc, if_pos (hmem.mpr hc)]

/-- What stands in front of the character, or all. -/
theorem take_before (l : List α) :
    (match find_first_of [c] l 0 with
      | some pos => l.take pos
      | none => l) = l.takeWhile (· ≠ c) := by
  rw [find_first_of_one]
  by_cases hc : c ∈ l
  · rw [if_pos hc]
    have hsplit := @List.takeWhile_append_dropWhile _ (fun d => decide (d ≠ c)) l
    calc l.take (l.takeWhile (· ≠ c)).length
        = (l.takeWhile (· ≠ c) ++ l.dropWhile (· ≠ c)).take (l.takeWhile (· ≠ c)).length := by
          rw [hsplit]
      _ = l.takeWhile (· ≠ c) := List.take_left
  · have hall : ∀ d ∈ l, decide (d ≠ c) = true := by
      intro d hd
      apply decide_eq_true
      rintro rfl
      exact hc hd
    rw [if_neg hc]
    exact (List.takeWhile_eq_self_iff.mpr hall).symm

/-- What stands behind it. -/
theorem drop_after (l missing : List α) :
    (match find_first_of [c] l 0 with
      | some pos => l.drop (pos + 1)
      | none => missing) = if c ∈ l then (l.dropWhile (· ≠ c)).tail else missing := by
  rw [find_first_of_one]
  by_cases hc : c ∈ l
  · rw [if_pos hc, if_pos hc]
    have hsplit := @List.takeWhile_append_dropWhile _ (fun d => decide (d ≠ c)) l
    calc l.drop ((l.takeWhile (· ≠ c)).length + 1)
        = (l.drop (l.takeWhile (· ≠ c)).length).tail := by rw [List.tail_drop]
      _ = ((l.takeWhile (· ≠ c) ++ l.dropWhile (· ≠ c)).drop
            (l.takeWhile (· ≠ c)).length).tail := by rw [hsplit]
      _ = (l.dropWhile (· ≠ c)).tail := by rw [List.drop_left]
  · rw [if_neg hc, if_neg hc]

end

/-! ## Words for characters -/

/-- `read` takes the word for a character off the front of a text, where the character is one of
those that are kept. -/
structure Reads {β : Type} (kept : α → Prop) (word : α → List β)
    (read : List β → Option (α × List β)) : Prop where
  empty : read [] = none
  word_append : ∀ {c : α}, kept c → ∀ rest : List β, read (word c ++ rest) = some (c, rest)

/-- A text of such words comes from one text only. -/
theorem Reads.flatMap_inj {β : Type} {kept : α → Prop} {word : α → List β}
    {read : List β → Option (α × List β)} (h : Reads kept word read) {l l' : List α}
    (hl : ∀ c ∈ l, kept c) (hl' : ∀ c ∈ l', kept c)
    (heq : l.flatMap word = l'.flatMap word) : l = l' := by
  induction l generalizing l' with
  | nil =>
    cases l' with
    | nil => rfl
    | cons d l' =>
      have hread := h.word_append (hl' d List.mem_cons_self) (l'.flatMap word)
      rw [← List.flatMap_cons, ← heq, List.flatMap_nil, h.empty] at hread
      cases hread
  | cons c l ih =>
    have hread := h.word_append (hl c List.mem_cons_self) (l.flatMap word)
    rw [← List.flatMap_cons, heq] at hread
    cases l' with
    | nil =>
      rw [List.flatMap_nil, h.empty] at hread
      cases hread
    | cons d l' =>
      rw [List.flatMap_cons, h.word_append (hl' d List.mem_cons_self)] at hread
      obtain ⟨rfl, hrest⟩ := Prod.mk.inj (Option.some.inj hread)
      rw [ih (fun c hc => hl c (List.mem_cons_of_mem _ hc))
        (fun c hc => hl' c (List.mem_cons_of_mem _ hc)) hrest.symm]

/-! ## Numbers -/

def isspace (c : Char) : Bool :=
  c = ' ' ∨ 9 ≤ c.toNat ∧ c.toNat ≤ 13

/-- The number that digits stand for. -/
def decimal (digits : List Char) : Nat :=
  digits.foldl (fun n c => n * 10 + (c.toNat - 48)) 0

/-- The number that a text without a blank begins with: a sign that may be there, and digits. -/
def signed : List Char → Option Int
  | '-' :: l => (digits l).map fun n => -n
  | '+' :: l => digits l
  | l => digits l
where
  digits (l : List Char) : Option Int :=
    if l.takeWhile Char.isDigit = [] then none else some (decimal (l.takeWhile Char.isDigit))

/-- `strtol` of base 10, without its limits. -/
def strtol (l : List Char) : Option Int :=
  signed (l.dropWhile isspace)

end lib.text
