-- Replacement that keeps the size (regex_replace_fill of common/buffer.cpp): a
-- result that is too short is to be filled behind the last replaced occurrence.
import Mathlib.Algebra.Group.Nat.Defs
import Socle.Lib.Loop
import Socle.Lib.Regex

namespace socle.fill

open lib.loop lib.regex

abbrev text := List Char

def INT_MAX : Nat := 2147483647

/-! ## The function -/

/-- Where the fill mode is: it counts the matches, replaces them one by one, or fills. -/
inductive State
  | counting (match_count : Nat) (s : text)
  | replacing (match_count i : Nat) (s result_add : text)
  | filling (match_count i : Nat) (appendix result_add : text) (missing : Nat) (r : UInt32)

/-- `regex_replace_fill`: an expression, what it writes for a match, the sample, and the pattern. -/
structure Call where
  re : Regex Char
  format : Match Char → text
  sample : text
  fill_pattern : text

namespace Call

def replace (c : Call) (l : text) : text :=
  c.re.regex_replace c.format l

/-- One turn of the loops. `none` is a count that is no `int` any more. -/
def turn (c : Call) : State → Turn State (Option text)
  | .counting match_count s =>
    match c.re.search [] false s with
    | some m =>
      if match_count + 1 ≤ INT_MAX then .next (.counting (match_count + 1) m.rest) else .done none
    | none => .next (.replacing match_count 0 c.sample [])
  | .replacing match_count i s result_add =>
    match c.re.search [] false s with
    | some m =>
      let result_add := result_add ++ m.front ++ c.replace m.word
      if i + 1 = match_count then
        let appendix := m.rest
        -- `result` was cleared, and nothing was put into it since
        let result : text := []
        let dif := c.sample.length - result.length
        if dif > 0 then
          .next (.filling match_count i appendix result_add (dif - appendix.length) 0)
        else .next (.replacing match_count (i + 1) m.rest (result_add ++ appendix))
      else .next (.replacing match_count (i + 1) m.rest result_add)
    | none => .done (some result_add)
  | .filling match_count i appendix result_add missing r =>
    if r.toNat < missing then
      .next (.filling match_count i appendix (result_add ++ c.fill_pattern) missing
        (r + UInt32.ofNat c.fill_pattern.length))
    else .next (.replacing match_count (i + 1) appendix (result_add ++ appendix))

/-- `regex_replace_fill`. The difference of the sizes is unsigned, so it is positive as soon as they
differ. -/
def regex_replace_fill (c : Call) (fuel : Nat) : State ⊕ Option text :=
  if c.sample.length = (c.replace c.sample).length then .inr (some (c.replace c.sample))
  else turns c.turn fuel (.counting 0 c.sample)

/-- It returns `r`. -/
def Returns (c : Call) (r : text) : Prop :=
  ∃ fuel, c.regex_replace_fill fuel = .inr (some r)

/-! ## The law -/

/-- The plain result, with `n` characters of `fill` behind the last occurrence that is replaced. -/
def filled (c : Call) (fill : Char) (n : Nat) : text :=
  c.re.replaced c.format c.sample ++ List.replicate n fill ++ (c.re.all_matches c.sample).2

/-- What comes back is the plain result, or it has the size of the sample. -/
structure Kept (c : Call) (fill : Char) (r : text) : Prop where
  not_shorter : c.sample.length ≤ r.length
  plain : c.sample.length ≤ (c.replace c.sample).length → r = c.replace c.sample
  filled : (c.replace c.sample).length < c.sample.length → r.length = c.sample.length ∧
    r = c.filled fill (c.sample.length - (c.replace c.sample).length)

def KeepsSize (c : Call) (fill : Char) : Prop :=
  ∃ r, c.Returns r ∧ Kept c fill r

/-! ## When it holds -/

/-- The matches, each replaced on its own. -/
def one_by_one (c : Call) (ms : List (Match Char)) : text :=
  ms.flatMap fun m => m.front ++ c.replace m.word

/-- The plain result has just the size of the sample. Or the searches, each behind the match of the
last one, come to an end, their matches can be counted, and: for a plain result that is too short,
they begin in front, follow each other and are replaced by nothing. For one that is longer, it is
by chance what the matches give that are replaced on their own, and are filled up all the same. -/
def Fits (c : Call) (fill : Char) : Prop :=
  c.sample.length = (c.replace c.sample).length ∨
    ∃ ms rest, c.re.Chain c.sample ms rest ∧ ms.length ≤ INT_MAX ∧
      c.sample.length - rest.length < 2 ^ 32 ∧
      if c.sample.length < (c.replace c.sample).length then
        c.replace c.sample =
          c.one_by_one ms ++ List.replicate (c.sample.length - rest.length) fill ++ rest
      else
        (∀ m ∈ ms, m.front = [] ∧ c.replace m.word = []) ∧
          c.filled fill (c.sample.length - (c.replace c.sample).length) =
            List.replicate (c.sample.length - rest.length) fill ++ rest

/-! ## The loops -/

variable {c : Call} {fill : Char} {k i n : Nat} {s out appendix rest : text} {r : UInt32}
  {ms : List (Match Char)} {x : Option text}

/-- A loop over an `unsigned int` adds as many characters as are missing. -/
theorem stops_filling (hfill : c.fill_pattern = [fill]) (hn : n < 2 ^ 32) (hr : r.toNat ≤ n) :
    Stops c.turn (.filling k i appendix out n r) x ↔ Stops c.turn
      (.replacing k (i + 1) appendix
        (out ++ List.replicate (n - r.toNat) fill ++ appendix)) x := by
  induction hd : n - r.toNat generalizing out r with
  | zero =>
    have hend : c.turn (.filling k i appendix out n r) =
        .next (.replacing k (i + 1) appendix (out ++ appendix)) := by
      have hstop : ¬ r.toNat < n := by omega
      simp [turn, hstop]
    rw [stops_next hend]
    simp
  | succ d ih =>
    have hless : r.toNat < n := by omega
    have hstep : c.turn (.filling k i appendix out n r) =
        .next (.filling k i appendix (out ++ [fill]) n (r + 1)) := by
      simp [turn, hless, hfill]
    have hsucc : (r + 1).toNat = r.toNat + 1 := by
      rw [UInt32.toNat_add, UInt32.toNat_one]
      apply Nat.mod_eq_of_lt
      omega
    rw [stops_next hstep, ih (by omega) (by omega), List.replicate_succ]
    simp

/-- The counter wraps before it comes to a larger number. -/
theorem never_stops_filling (hn : 2 ^ 32 ≤ n) : ¬ Stops c.turn (.filling k i appendix out n r) x := by
  apply not_stops_of_forever (P := fun t => ∃ out r, t = .filling k i appendix out n r)
  · rintro _ ⟨out, r, rfl⟩
    have hless : r.toNat < n := Nat.lt_of_lt_of_le r.toNat_lt hn
    have hstep : c.turn (.filling k i appendix out n r) = .next (.filling k i appendix
        (out ++ c.fill_pattern) n (r + UInt32.ofNat c.fill_pattern.length)) := by
      simp [turn, hless]
    exact ⟨_, hstep, _, _, rfl⟩
  · exact ⟨out, r, rfl⟩

theorem stops_replaced (h : c.re.search [] false s = none) :
    Stops c.turn (.replacing k i s out) x ↔ x = some out := by
  have hend : c.turn (.replacing k i s out) = .done (some out) := by
    simp [turn, h]
  exact stops_done hend

/-- The last match is replaced and filled, and the rest follows. -/
theorem stops_last {m : Match Char} (hfill : c.fill_pattern = [fill]) (hsample : 0 < c.sample.length)
    (hm : c.re.search [] false s = some m) (hrest : c.re.search [] false m.rest = none)
    (hk : i + 1 = k) : Stops c.turn (.replacing k i s out) x ↔
      c.sample.length - m.rest.length < 2 ^ 32 ∧ x = some (out ++ (m.front ++ c.replace m.word) ++
        List.replicate (c.sample.length - m.rest.length) fill ++ m.rest) := by
  have hstep : c.turn (.replacing k i s out) = .next (.filling k i m.rest
      (out ++ m.front ++ c.replace m.word) (c.sample.length - m.rest.length) 0) := by
    simp [turn, hm, hk, hsample]
  rw [stops_next hstep]
  by_cases hn : c.sample.length - m.rest.length < 2 ^ 32
  · rw [stops_filling hfill hn (Nat.zero_le _), stops_replaced hrest, and_iff_right hn]
    have hzero : (0 : UInt32).toNat = 0 := rfl
    simp only [hzero, Nat.sub_zero, List.append_assoc]
  · refine iff_of_false (never_stops_filling (Nat.le_of_not_lt hn)) ?_
    exact fun h => hn h.1

/-- The matches are replaced one by one. -/
theorem stops_replacing (hfill : c.fill_pattern = [fill]) (hsample : 0 < c.sample.length)
    (h : c.re.Chain s ms rest) (hne : ms ≠ []) (hk : i + ms.length = k) :
    Stops c.turn (.replacing k i s out) x ↔ c.sample.length - rest.length < 2 ^ 32 ∧
      x = some (out ++ c.one_by_one ms ++
        List.replicate (c.sample.length - rest.length) fill ++ rest) := by
  induction h generalizing i out with
  | done => exact absurd rfl hne
  | @next s m ms rest hm hrest ih =>
    cases ms with
    | nil =>
      cases hrest with
      | done hnone =>
        rw [stops_last hfill hsample hm hnone hk]
        simp [one_by_one]
    | cons m' ms' =>
      have hmore : ¬ i + 1 = k := by
        simp only [List.length_cons] at hk
        omega
      have hstep : c.turn (.replacing k i s out) = .next (.replacing k (i + 1) m.rest
          (out ++ m.front ++ c.replace m.word)) := by
        simp [turn, hm, hmore]
      have hcount : i + 1 + (m' :: ms').length = k := by
        simp only [List.length_cons] at hk ⊢
        omega
      rw [stops_next hstep, ih (by simp) hcount]
      simp [one_by_one]

/-- All matches are counted. -/
theorem stops_counting (h : c.re.Chain s ms rest) (hk : k + ms.length ≤ INT_MAX) :
    Stops c.turn (.counting k s) x ↔
      Stops c.turn (.replacing (k + ms.length) 0 c.sample []) x := by
  induction h generalizing k with
  | done hnone =>
    apply stops_next
    simp [turn, hnone]
  | @next s m ms rest hm hrest ih =>
    rw [List.length_cons] at hk ⊢
    have hstep : c.turn (.counting k s) = .next (.counting (k + 1) m.rest) := by
      have hint : k + 1 ≤ INT_MAX := by omega
      simp [turn, hm, hint]
    rw [stops_next hstep, ih (by omega)]
    have hsame : k + 1 + ms.length = k + (ms.length + 1) := by omega
    rw [hsame]

/-- When the count ends, the searches came to an end. -/
theorem chain_of_counting (hk : k ≤ INT_MAX) {result : text}
    (h : Stops c.turn (.counting k s) (some result)) :
    ∃ ms rest, c.re.Chain s ms rest ∧ k + ms.length ≤ INT_MAX := by
  obtain ⟨fuel, hturns⟩ := h
  induction fuel generalizing k s with
  | zero => cases hturns
  | succ fuel ih =>
    cases hsearch : c.re.search [] false s with
    | none => exact ⟨[], s, Regex.Chain.done hsearch, hk⟩
    | some m =>
      by_cases hint : k + 1 ≤ INT_MAX
      · have hstep : c.turn (.counting k s) = .next (.counting (k + 1) m.rest) := by
          simp [turn, hsearch, hint]
        rw [turns_next hstep] at hturns
        obtain ⟨ms, rest, hchain, hcount⟩ := ih hint hturns
        refine ⟨m :: ms, rest, Regex.Chain.next hsearch hchain, ?_⟩
        rw [List.length_cons]
        omega
      · have hover : c.turn (.counting k s) = .done none := by
          simp [turn, hsearch, hint]
        rw [turns_done hover] at hturns
        cases hturns

/-! ## Returning -/

theorem returns_plain (h : c.sample.length = (c.replace c.sample).length) {result : text} :
    c.Returns result ↔ result = c.replace c.sample := by
  unfold Returns regex_replace_fill
  simp [h, eq_comm]

/-- In fill mode, there is a match. -/
theorem matched (h : c.sample.length ≠ (c.replace c.sample).length)
    (hchain : c.re.Chain c.sample ms rest) : ms ≠ [] ∧ 0 < c.sample.length := by
  cases hchain with
  | done hnone =>
    unfold replace at h
    rw [Regex.replace_of_no_match hnone] at h
    exact absurd rfl h
  | next hm hrest =>
    have hmoves := (Regex.Chain.next hm hrest).moves
    have hlen := Regex.length_of_split (c.re.split _ _ _ _ hm)
    exact ⟨by simp, by omega⟩

theorem returns_filled (hfill : c.fill_pattern = [fill])
    (h : c.sample.length ≠ (c.replace c.sample).length) {result : text} :
    c.Returns result ↔ ∃ ms rest, c.re.Chain c.sample ms rest ∧ ms.length ≤ INT_MAX ∧
      c.sample.length - rest.length < 2 ^ 32 ∧ result = c.one_by_one ms ++
        List.replicate (c.sample.length - rest.length) fill ++ rest := by
  have hloops : c.Returns result ↔ Stops c.turn (.counting 0 c.sample) (some result) := by
    unfold Returns regex_replace_fill Stops
    simp [h]
  have hruns : ∀ {ms rest}, c.re.Chain c.sample ms rest → ms.length ≤ INT_MAX →
      (Stops c.turn (.counting 0 c.sample) (some result) ↔
        c.sample.length - rest.length < 2 ^ 32 ∧ result = c.one_by_one ms ++
          List.replicate (c.sample.length - rest.length) fill ++ rest) := by
    intro ms rest hchain hcount
    obtain ⟨hne, hsample⟩ := matched h hchain
    rw [stops_counting hchain (by omega), stops_replacing hfill hsample hchain hne rfl]
    simp
  rw [hloops]
  refine ⟨?_, ?_⟩
  · intro hstops
    obtain ⟨ms, rest, hchain, hcount⟩ := chain_of_counting (Nat.zero_le _) hstops
    rw [Nat.zero_add] at hcount
    exact ⟨ms, rest, hchain, hcount, (hruns hchain hcount).mp hstops⟩
  · rintro ⟨ms, rest, hchain, hcount, hresult⟩
    exact (hruns hchain hcount).mpr hresult

/-! ## What is to come back -/

theorem filled_length (h : (c.replace c.sample).length ≤ c.sample.length) :
    (c.filled fill (c.sample.length - (c.replace c.sample).length)).length = c.sample.length := by
  have hplain : (c.replace c.sample).length = (c.re.replaced c.format c.sample).length +
      (c.re.all_matches c.sample).2.length := List.length_append
  simp only [filled, List.length_append, List.length_replicate]
  omega

theorem kept_same {result : text} (h : c.sample.length = (c.replace c.sample).length) :
    Kept c fill result ↔ result = c.replace c.sample := by
  refine ⟨?_, ?_⟩
  · intro hkept
    exact hkept.plain (Nat.le_of_eq h)
  · rintro rfl
    exact ⟨Nat.le_of_eq h, fun _ => rfl, fun hless => absurd h (Nat.ne_of_gt hless)⟩

theorem kept_longer {result : text} (h : c.sample.length < (c.replace c.sample).length) :
    Kept c fill result ↔ result = c.replace c.sample := by
  refine ⟨?_, ?_⟩
  · intro hkept
    exact hkept.plain (Nat.le_of_lt h)
  · rintro rfl
    exact ⟨Nat.le_of_lt h, fun _ => rfl, fun hless => absurd h (Nat.lt_asymm hless)⟩

theorem kept_shorter {result : text} (h : (c.replace c.sample).length < c.sample.length) :
    Kept c fill result ↔
      result = c.filled fill (c.sample.length - (c.replace c.sample).length) := by
  refine ⟨?_, ?_⟩
  · intro hkept
    exact (hkept.filled h).2
  · rintro rfl
    have hlen : (c.filled fill (c.sample.length - (c.replace c.sample).length)).length =
        c.sample.length := filled_length (Nat.le_of_lt h)
    exact ⟨Nat.le_of_eq hlen.symm, fun hle => absurd h (Nat.not_lt.mpr hle), fun _ => ⟨hlen, rfl⟩⟩

theorem one_by_one_nil :
    c.one_by_one ms = [] ↔ ∀ m ∈ ms, m.front = [] ∧ c.replace m.word = [] := by
  simp [one_by_one, List.flatMap_eq_nil_iff]

/-- As much is filled as if nothing were left of the sample up to the last match. -/
theorem filled_iff (h : (c.replace c.sample).length < c.sample.length)
    (hchain : c.re.Chain c.sample ms rest) :
    c.one_by_one ms ++ List.replicate (c.sample.length - rest.length) fill ++ rest =
        c.filled fill (c.sample.length - (c.replace c.sample).length) ↔
      (∀ m ∈ ms, m.front = [] ∧ c.replace m.word = []) ∧
        c.filled fill (c.sample.length - (c.replace c.sample).length) =
          List.replicate (c.sample.length - rest.length) fill ++ rest := by
  rw [← one_by_one_nil]
  refine ⟨?_, ?_⟩
  · intro heq
    have hlen := congrArg List.length heq
    rw [filled_length (Nat.le_of_lt h)] at hlen
    simp only [List.length_append, List.length_replicate] at hlen
    have hrest := hchain.length
    have hnil : c.one_by_one ms = [] := List.length_eq_zero_iff.mp (by omega)
    rw [hnil] at heq
    exact ⟨hnil, heq.symm⟩
  · rintro ⟨hnil, heq⟩
    rw [hnil, heq]
    rfl

/-! ## Every call -/

/-- The size is kept just when the call fits. -/
theorem keeps_size_iff (c : Call) (fill : Char) (hfill : c.fill_pattern = [fill]) :
    c.KeepsSize fill ↔ c.Fits fill := by
  unfold KeepsSize Fits
  by_cases hsame : c.sample.length = (c.replace c.sample).length
  · refine iff_of_true ?_ (Or.inl hsame)
    exact ⟨_, (returns_plain hsame).mpr rfl, (kept_same hsame).mpr rfl⟩
  · rw [or_iff_right hsame]
    refine ⟨?_, ?_⟩
    · rintro ⟨result, hreturns, hkept⟩
      obtain ⟨ms, rest, hchain, hcount, hless, rfl⟩ := (returns_filled hfill hsame).mp hreturns
      refine ⟨ms, rest, hchain, hcount, hless, ?_⟩
      split
      next hlonger => exact ((kept_longer hlonger).mp hkept).symm
      next hshorter =>
        have hless : (c.replace c.sample).length < c.sample.length := by omega
        exact (filled_iff hless hchain).mp ((kept_shorter hless).mp hkept)
    · rintro ⟨ms, rest, hchain, hcount, hless, hright⟩
      refine ⟨_, (returns_filled hfill hsame).mpr ⟨ms, rest, hchain, hcount, hless, rfl⟩, ?_⟩
      split at hright
      next hlonger => exact (kept_longer hlonger).mpr hright.symm
      next hshorter =>
        have hless : (c.replace c.sample).length < c.sample.length := by omega
        exact (kept_shorter hless).mpr ((filled_iff hless hchain).mpr hright)

end Call

/-! ## Single characters -/

/-- The first `a`. -/
def find_char (a : Char) : text → Option (Match Char)
  | [] => none
  | b :: rest =>
    if b = a then some ⟨[], [a], rest, []⟩
    else (find_char a rest).map fun m => { m with front := b :: m.front }

theorem find_char_split {a : Char} {l : text} {m : Match Char} (h : find_char a l = some m) :
    m.front ++ m.word ++ m.rest = l ∧ m.word = [a] := by
  induction l generalizing m with
  | nil => cases h
  | cons b l ih =>
    unfold find_char at h
    split at h
    next heq =>
      obtain rfl := Option.some.inj h
      exact ⟨by rw [heq]; rfl, rfl⟩
    next =>
      obtain ⟨m', hm', rfl⟩ := Option.map_eq_some_iff.mp h
      obtain ⟨hsplit, hword⟩ := ih hm'
      refine ⟨?_, hword⟩
      rw [← hsplit]
      rfl

/-- The expression that is the character `a`. -/
def character (a : Char) : Regex Char where
  search _ strict l := (find_char a l).filter fun m => !strict || m.front.isEmpty
  split := by
    intro seen strict l m h
    exact (find_char_split (Option.filter_eq_some_iff.mp h).1).1
  strict_word := by
    intro seen l m h
    obtain ⟨hfind, hfront⟩ := Option.filter_eq_some_iff.mp h
    refine ⟨by simpa using hfront, ?_⟩
    rw [(find_char_split hfind).2]
    exact List.cons_ne_nil a []

/-- Each "a" is removed. -/
def remove_a (sample : text) : Call where
  re := character 'a'
  format _ := []
  sample
  fill_pattern := [' ']

/-- "ab", with the match in front. -/
theorem keeps_size_iff_front :
    (remove_a ['a', 'b']).KeepsSize ' ' ↔ (remove_a ['a', 'b']).Fits ' ' :=
  (remove_a ['a', 'b']).keeps_size_iff ' ' rfl

/-- "ba" comes back with three characters. -/
theorem a_size_is_not_kept :
    ¬ ∀ (c : Call) (fill : Char), c.fill_pattern = [fill] → c.KeepsSize fill := by
  intro hall
  let c := remove_a ['b', 'a']
  let m : Match Char := ⟨['b'], ['a'], [], []⟩
  have hplain : c.replace c.sample = ['b'] := by
    have hnext : c.re.next ['b', 'a'] false false [] = none := rfl
    have hrest : c.re.matches_from ['b', 'a'] false false [] = ([], []) :=
      Regex.matches_from_none hnext
    have hmatches : c.re.all_matches ['b', 'a'] = ([m], []) :=
      congrArg (fun r => (m :: r.1, r.2)) hrest
    have hreplace : c.replace c.sample = c.re.regex_replace c.format ['b', 'a'] := rfl
    rw [hreplace, Regex.regex_replace, Regex.replaced, hmatches]
    rfl
  have hchain : c.re.Chain c.sample [m] [] := Regex.Chain.next rfl (Regex.Chain.done rfl)
  have hshorter : (c.replace c.sample).length < c.sample.length := by
    rw [hplain]
    decide
  obtain ⟨result, hreturns, hkept⟩ := hall c ' ' rfl
  obtain ⟨ms, rest, hchain', -, -, rfl⟩ :=
    (Call.returns_filled rfl (Nat.ne_of_gt hshorter)).mp hreturns
  obtain ⟨rfl, rfl⟩ := hchain.unique hchain'
  have hlen := (hkept.filled hshorter).1
  have hsample : c.sample.length = 2 := rfl
  have hfront : (c.one_by_one [m]).length = 1 + (c.replace ['a']).length := by
    simp [Call.one_by_one, m, Nat.add_comm]
  simp only [List.length_append, List.length_replicate, hfront, hsample, List.length_nil] at hlen
  omega

end socle.fill
