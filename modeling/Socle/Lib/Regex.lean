-- Regular expressions as std::regex uses them: what a search finds, the matches
-- that an iterator goes through, and replacement. How an expression finds a match
-- is left open.
import Mathlib.Data.List.Basic

namespace lib.regex

variable {α : Type*}

/-- `match_results`: the text in front of the match and behind it, the match, and its groups. -/
structure Match (α : Type*) where
  front : List α
  word : List α
  rest : List α
  groups : List (Option (List α)) := []

/-- An expression is what `regex_search` finds. It sees the characters `seen` before the text
(`match_prev_avail`), and `strict` stands for `match_not_null | match_continuous`. -/
structure Regex (α : Type*) where
  search (seen : List α) (strict : Bool) (l : List α) : Option (Match α)
  split : ∀ seen strict l m, search seen strict l = some m → m.front ++ m.word ++ m.rest = l
  strict_word : ∀ seen l m, search seen true l = some m → m.front = [] ∧ m.word ≠ []

namespace Regex

/-! ## The iterator -/

/-- `operator++`: the match behind the last one, and if `match_prev_avail` is set now. `empty` says if
the last match was empty. -/
def next (re : Regex α) (before : List α) (avail empty : Bool) (l : List α) :
    Option (Match α × Bool) :=
  if empty then
    match l with
    | [] => none
    | c :: rest =>
      match re.search (if avail then before else []) true l with
      | some m => some (m, avail)
      | none => (re.search (before ++ [c]) false rest).map fun m =>
        ({ m with front := c :: m.front }, true)
  else (re.search before false l).map fun m => (m, true)

variable {re : Regex α} {before l : List α} {avail avail' empty : Bool} {m : Match α}

/-- How far the iterator has to go. -/
def distance (empty : Bool) (l : List α) : Nat :=
  2 * l.length + if empty then 0 else 1

theorem length_of_split (h : m.front ++ m.word ++ m.rest = l) :
    m.front.length + m.word.length + m.rest.length = l.length := by
  rw [← h]
  simp [Nat.add_assoc]

theorem next_split (h : re.next before avail empty l = some (m, avail')) :
    m.front ++ m.word ++ m.rest = l := by
  unfold next at h
  cases empty with
  | false =>
    obtain ⟨m', hm, heq⟩ := Option.map_eq_some_iff.mp h
    obtain ⟨rfl, -⟩ := Prod.mk.inj heq
    exact re.split _ _ _ _ hm
  | true =>
    cases l with
    | nil => cases h
    | cons c rest =>
      dsimp only at h
      cases hstrict : re.search (if avail then before else []) true (c :: rest) with
      | some m' =>
        rw [hstrict] at h
        obtain ⟨rfl, -⟩ := Prod.mk.inj (Option.some.inj h)
        exact re.split _ _ _ _ hstrict
      | none =>
        rw [hstrict] at h
        obtain ⟨m', hm, heq⟩ := Option.map_eq_some_iff.mp h
        obtain ⟨rfl, -⟩ := Prod.mk.inj heq
        have hsplit := re.split _ _ _ _ hm
        simp [← hsplit]

/-- Behind an empty match, the iterator goes forward. -/
theorem next_moves (h : re.next before avail true l = some (m, avail')) :
    m.rest.length < l.length := by
  have hlen := length_of_split (next_split h)
  unfold next at h
  cases l with
  | nil => cases h
  | cons c rest =>
    simp only [if_true] at h
    cases hstrict : re.search (if avail then before else []) true (c :: rest) with
    | some m' =>
      rw [hstrict] at h
      obtain ⟨rfl, -⟩ := Prod.mk.inj (Option.some.inj h)
      have hword := List.length_pos_iff.mpr (re.strict_word _ _ _ hstrict).2
      omega
    | none =>
      rw [hstrict] at h
      obtain ⟨m', hm, heq⟩ := Option.map_eq_some_iff.mp h
      obtain ⟨rfl, -⟩ := Prod.mk.inj heq
      simp only [List.length_cons] at hlen ⊢
      omega

/-- Each match brings the iterator nearer to the end. -/
theorem next_distance (h : re.next before avail empty l = some (m, avail')) :
    distance m.word.isEmpty m.rest < distance empty l := by
  have hlen := length_of_split (next_split h)
  unfold distance
  cases empty with
  | true =>
    have hless := next_moves h
    split
    · simp
      omega
    · simp
      omega
  | false =>
    cases hword : m.word with
    | nil => simp; omega
    | cons c word =>
      rw [hword, List.length_cons] at hlen
      simp
      omega

/-- The matches from here on, and the text behind the last one. -/
def matches_from (re : Regex α) (before : List α) (avail empty : Bool) (l : List α) :
    List (Match α) × List α :=
  match h : re.next before avail empty l with
  | none => ([], l)
  | some (m, avail) =>
    have := next_distance h
    let r := matches_from re (before ++ m.front ++ m.word) avail m.word.isEmpty m.rest
    (m :: r.1, r.2)
termination_by distance empty l

/-- What `sregex_iterator` goes through, and the text behind it. The search of its constructor does
not set `match_prev_avail`. -/
def all_matches (re : Regex α) (l : List α) : List (Match α) × List α :=
  match re.search [] false l with
  | none => ([], l)
  | some m =>
    let r := matches_from re (m.front ++ m.word) false m.word.isEmpty m.rest
    (m :: r.1, r.2)

/-- `regex_replace`, up to the end of the last match that was replaced. -/
def replaced (re : Regex α) (format : Match α → List α) (l : List α) : List α :=
  (re.all_matches l).1.flatMap fun m => m.front ++ format m

def regex_replace (re : Regex α) (format : Match α → List α) (l : List α) : List α :=
  re.replaced format l ++ (re.all_matches l).2

theorem matches_from_none (h : re.next before avail empty l = none) :
    re.matches_from before avail empty l = ([], l) := by
  rw [matches_from]
  split
  next => rfl
  next hsome =>
    rw [h] at hsome
    cases hsome

/-- A text without a match is not changed. -/
theorem replace_of_no_match {format : Match α → List α} (h : re.search [] false l = none) :
    re.regex_replace format l = l := by
  simp [regex_replace, replaced, all_matches, h]

/-! ## Searching again behind each match -/

/-- `ms` are the matches that are found when each search starts afresh behind the last match, and
`rest` is the text in which nothing is found any more. -/
inductive Chain (re : Regex α) : List α → List (Match α) → List α → Prop
  | done {l : List α} : re.search [] false l = none → Chain re l [] l
  | next {l : List α} {m : Match α} {ms : List (Match α)} {rest : List α} :
    re.search [] false l = some m → Chain re m.rest ms rest → Chain re l (m :: ms) rest

variable {ms ms' : List (Match α)} {rest rest' : List α}

theorem Chain.unique (h : Chain re l ms rest) (h' : Chain re l ms' rest') :
    ms = ms' ∧ rest = rest' := by
  induction h generalizing ms' rest' with
  | done hnone =>
    cases h' with
    | done => exact ⟨rfl, rfl⟩
    | next hsome =>
      rw [hnone] at hsome
      cases hsome
  | next hsome _ ih =>
    cases h' with
    | done hnone =>
      rw [hsome] at hnone
      cases hnone
    | next hsome' hrest' =>
      rw [hsome] at hsome'
      obtain rfl := Option.some.inj hsome'
      obtain ⟨rfl, rfl⟩ := ih hrest'
      exact ⟨rfl, rfl⟩

/-- What is in front of the rest. -/
theorem Chain.split (h : Chain re l ms rest) :
    (ms.flatMap fun m => m.front ++ m.word) ++ rest = l := by
  induction h with
  | done => rfl
  | next hsome _ ih =>
    rw [List.flatMap_cons, List.append_assoc, ih]
    exact re.split _ _ _ _ hsome

/-- No match of a chain is empty and in front. -/
theorem Chain.moves (h : Chain re l (m :: ms) rest) : 0 < m.front.length + m.word.length := by
  cases h with
  | next hsome hrest =>
    by_contra hzero
    have hsplit := re.split _ _ _ _ hsome
    obtain ⟨hfront, hword⟩ : m.front = [] ∧ m.word = [] := by
      constructor
      · exact List.length_eq_zero_iff.mp (by omega)
      · exact List.length_eq_zero_iff.mp (by omega)
    have hsame : m.rest = l := by
      rw [hfront, hword] at hsplit
      exact hsplit
    rw [hsame] at hrest
    have hms := (hrest.unique (Chain.next hsome (hsame ▸ hrest))).1
    exact absurd (congrArg List.length hms) (by simp)

theorem Chain.length (h : Chain re l ms rest) : ms.length + rest.length ≤ l.length := by
  induction ms generalizing l with
  | nil =>
    cases h
    simp
  | cons m ms ih =>
    have hmoves := h.moves
    cases h with
    | next hsome hrest =>
      have hlen := length_of_split (re.split _ _ _ _ hsome)
      have hless := ih hrest
      rw [List.length_cons]
      omega

end Regex

end lib.regex
