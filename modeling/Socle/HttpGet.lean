-- The download of a resource over HTTP (http_get and header_value of internet.cpp):
-- pieces are received until the body has the length that the header gives. A state
-- counts how much of the blank line that ends the header was seen.
import Mathlib.Data.List.DropRight
import Mathlib.Data.List.TakeWhile
import Mathlib.Tactic
import Socle.Lib.Text

namespace socle.inet

open lib.text

/-- A `std::string`, or the bytes of a buffer. -/
abbrev text := List Char

/-! ## Headers -/

/-- `header_value`. The code also looks for `until` when there is no `begin`, and gives the same. -/
def header_value (full_header header_name : text) : text :=
  match find header_name full_header with
  | none => []
  | some pos =>
    match find_first_not_of [':', ' '] full_header (pos + header_name.length) with
    | none => []
    | some begin =>
      match find_first_of ['\r', '\n', '\t', ' '] full_header (begin + 1) with
      | none => []
      | some until_ => substr full_header begin (until_ - begin)

def INT_MIN : Int := -2147483648
def INT_MAX : Int := 2147483647

/-- `std::stringstream(s) >> n` for an `int`: what `n` is then. -/
def extract (s : text) (n : Int) : Int :=
  if s.dropWhile isspace = [] then n
  else max INT_MIN (min INT_MAX ((strtol s).getD 0))

/-- "Content-Length". -/
def content_length : text :=
  ['C', 'o', 'n', 't', 'e', 'n', 't', '-', 'L', 'e', 'n', 'g', 't', 'h']

/-! ## The loop -/

/-- The blank line, without the 0 behind it. -/
def delim : text := ['\r', '\n', '\r', '\n']

/-- `sizeof(delim)`. -/
def sizeof_delim : Nat := 5

/-- The state behind a character of the header. -/
def advance (state : Nat) (c : Char) : Nat :=
  if delim[state]? = some c then state + 1 else 0

/-- The loop that reads the header: the state, and how many characters it took. -/
def read_header (state : Nat) : text → Nat × Nat
  | [] => (state, 0)
  | c :: rest =>
    if state + 1 < sizeof_delim then
      let (state, i) := read_header (advance state c) rest
      (state, i + 1)
    else (state, 0)

/-- The variables of `receive_response`, and the buffer. -/
structure response where
  header : text := []
  bytes_sofar : Int := 0
  bytes_expected : Int := -1
  state : Nat := 0
  buf : text
deriving DecidableEq

/-- One turn of its loop, which received some bytes. -/
def receive (s : response) (recv_buffer : text) : response :=
  let (state, body_index) :=
    if s.state + 1 < sizeof_delim then read_header s.state recv_buffer else (s.state, 0)
  let header := if s.state + 1 < sizeof_delim then s.header ++ recv_buffer.take body_index
    else s.header
  let s := { s with header, state }
  if state = sizeof_delim - 1 then
    -- parse header
    let s := if s.bytes_expected = -1 then
        { s with bytes_expected := extract (header_value header content_length) (-2) }
      else s
    -- read body
    { s with
      bytes_sofar := s.bytes_sofar + (recv_buffer.drop body_index).length
      buf := s.buf ++ recv_buffer.drop body_index }
  else s

/-- `receive_response`, for what `recv` gives in turn; an empty piece is the end of the stream.
`none` when it still waits behind the last piece. -/
def receive_response (pieces : List text) (s : response) : Option (Int × text) :=
  if s.bytes_sofar = s.bytes_expected then some (s.bytes_sofar, s.buf)
  else
    match pieces with
    | [] => none
    | [] :: _ => some (s.bytes_sofar, s.buf)
    | piece :: pieces => receive_response pieces (receive s piece)

/-- `send_request`, for what `send` gives in turn. `none` when it still sends behind the last. -/
def send_request (length : Nat) : Int → List Int → Option Int
  | _, [] => none
  | sent, ret :: rets =>
    if ret > 0 then
      if sent + ret < length then send_request length (sent + ret) rets else some length
    else some (-1)

/-- `http_get`: what it returns, and the buffer. `sd` is what `socket_connect` gives. -/
def http_get (request : text) (sd : Int) (rets : List Int) (pieces : List text) (buf : text) :
    Option (Int × text) :=
  if sd ≥ 0 then
    match send_request request.length 0 rets with
    | none => none
    | some sent =>
      if sent < request.length then some (-1, buf) else receive_response pieces { buf }
  else some (0, buf)

/-! ## The law -/

/-- The lines of a header. -/
def lines : text → List text
  | [] => [[]]
  | '\r' :: '\n' :: rest => [] :: lines rest
  | c :: rest =>
    match lines rest with
    | [] => [[c]]
    | line :: rest => (c :: line) :: rest

/-- The length that a line gives, when it is that field. The case of its name does not matter, and
blanks around the value. -/
def length_of (line : text) : Option Nat :=
  let blank : Char → Bool := fun c => c = ' ' ∨ c = '\t'
  let name := line.takeWhile (· ≠ ':')
  let value := ((line.drop (name.length + 1)).dropWhile blank).rdropWhile blank
  if name.map Char.toLower = content_length.map Char.toLower ∧ value ≠ [] ∧ value.all Char.isDigit then
    some (decimal value)
  else none

/-- The header gives a length behind its first line, and no other. -/
def Gives (header : text) (n : Nat) : Prop :=
  n ∈ (lines header).tail.filterMap length_of ∧
    ∀ m ∈ (lines header).tail.filterMap length_of, m = n

instance (header : text) (n : Nat) : Decidable (Gives header n) :=
  inferInstanceAs (Decidable (_ ∧ _))

/-- A response that is received in pieces: a header in front of the first blank line, and at least
the body that it announces. -/
structure Response (front body : text) (n : Nat) (pieces : List text) : Prop where
  first : First delim front (front ++ delim ++ body)
  gives : Gives (front ++ delim) n
  enough : n ≤ body.length
  stream : pieces.flatten = front ++ delim ++ body
  pieces : ∀ piece ∈ pieces, 1 ≤ piece.length ∧ piece.length ≤ 16384

/-- The connection is made, and the request is sent. -/
def Sent (request : text) (sd : Int) (rets : List Int) : Prop :=
  0 ≤ sd ∧ send_request request.length 0 rets = some request.length

/-- The body is appended to the buffer, and its length is returned. -/
def Downloads (body : text) (n : Nat) (buf : text) (got : Option (Int × text)) : Prop :=
  got = some ((n : Int), buf ++ body.take n)

/-! ## When it holds -/

/-- The CRs at the end. -/
def crs (l : text) : Nat :=
  (l.reverse.takeWhile (· = '\r')).length

/-- `skipped` stands between the blank line and what is taken for the body. The matcher misses a
blank line behind an odd number of CRs, and goes on from its second half. -/
def Skips (front skipped : text) : Prop :=
  if crs front % 2 = 0 then skipped = []
  else read_header 2 skipped = (sizeof_delim - 1, skipped.length)

/-- Behind the first "Content-Length" in the header, and behind colons and blanks, stands `value`,
up to a blank or the end of the line. -/
def Value (header value : text) : Prop :=
  ∃ front seps stop rest,
    First content_length front header ∧
    header = front ++ content_length ++ (seps ++ (value ++ stop :: rest)) ∧
    (∀ c ∈ seps, c ∈ [':', ' ']) ∧ (∃ c l, value = c :: l ∧ c ∉ [':', ' '] ∧
      ∀ d ∈ l, d ∉ ['\r', '\n', '\t', ' ']) ∧
    stop ∈ ['\r', '\n', '\t', ' ']

/-- A piece ends behind `n` bytes. -/
def Ends (pieces : List text) (n : Nat) : Prop :=
  ∃ used rest, pieces = used ++ rest ∧ used.flatten.length = n

/-- When the body is downloaded: with what is skipped the header spells the length, a piece ends
where the body does, and the body is still the one behind the first blank line. -/
def Right (front body : text) (n : Nat) (pieces : List text) : Prop :=
  ∃ skipped rest value, body = skipped ++ rest ∧ Skips front skipped ∧
    Value (front ++ delim ++ skipped) value ∧ extract value (-2) = n ∧
    Ends pieces ((front ++ delim ++ skipped).length + n) ∧ rest.take n = body.take n

/-! ## The matcher -/

variable {state : Nat} {l l' front body header value buf : text} {n : Nat} {pieces : List text}

theorem advance_le (state : Nat) (c : Char) : advance state c ≤ 4 := by
  unfold advance
  split
  next hc =>
    obtain ⟨hlt, -⟩ := List.getElem?_eq_some_iff.mp hc
    exact hlt
  next => omega

theorem read_header_done (l : text) : read_header 4 l = (4, 0) := by
  cases l <;> rfl

theorem read_header_cons (h : state < 4) (c : Char) (l : text) :
    read_header state (c :: l) =
      ((read_header (advance state c) l).1, (read_header (advance state c) l).2 + 1) := by
  have hlt : state + 1 < sizeof_delim := by
    unfold sizeof_delim
    omega
  rw [read_header, if_pos hlt]

theorem read_header_le (h : state ≤ 4) (l : text) :
    (read_header state l).1 ≤ 4 ∧ (read_header state l).2 ≤ l.length := by
  induction l generalizing state with
  | nil => exact ⟨h, Nat.le_refl 0⟩
  | cons c l ih =>
    rcases Nat.lt_or_eq_of_le h with hlt | rfl
    · obtain ⟨hstate, hi⟩ := ih (advance_le state c)
      rw [read_header_cons hlt]
      exact ⟨hstate, Nat.succ_le_succ hi⟩
    · rw [read_header_done]
      exact ⟨Nat.le_refl 4, Nat.zero_le _⟩

/-- What is read on starts in the state that was reached. -/
theorem read_header_append (h : state ≤ 4) (l l' : text) :
    read_header state (l ++ l') =
      if (read_header state l).1 = 4 then read_header state l
      else ((read_header (read_header state l).1 l').1,
        l.length + (read_header (read_header state l).1 l').2) := by
  induction l generalizing state with
  | nil =>
    have hnil : read_header state [] = (state, 0) := rfl
    rw [hnil, List.nil_append]
    split
    next h4 =>
      have h4 : state = 4 := h4
      rw [h4, read_header_done]
    next => simp
  | cons c l ih =>
    rcases Nat.lt_or_eq_of_le h with hlt | rfl
    · rw [List.cons_append, read_header_cons hlt, read_header_cons hlt, ih (advance_le state c)]
      dsimp only
      split
      next => rfl
      next => rw [List.length_cons, Nat.add_right_comm]
    · rw [read_header_done, read_header_done]
      rfl

/-- The matcher takes all characters until it is done. -/
theorem read_header_all (h : state ≤ 4) (hno : (read_header state l).1 ≠ 4) :
    (read_header state l).2 = l.length := by
  induction l generalizing state with
  | nil => rfl
  | cons c l ih =>
    rcases Nat.lt_or_eq_of_le h with hlt | rfl
    · rw [read_header_cons hlt] at hno ⊢
      rw [List.length_cons]
      exact congrArg Nat.succ (ih (advance_le state c) hno)
    · rw [read_header_done] at hno
      exact absurd rfl hno

/-- It is done with the part that it took. -/
theorem read_header_take {i : Nat} (h : state ≤ 4) (hdone : read_header state l = (4, i)) :
    read_header state (l.take i) = (4, i) := by
  have hle : i ≤ l.length := by
    have hlen := (read_header_le h l).2
    rw [hdone] at hlen
    exact hlen
  by_cases hpart : (read_header state (l.take i)).1 = 4
  · have happend := read_header_append h (l.take i) (l.drop i)
    rw [List.take_append_drop, hdone, if_pos hpart] at happend
    exact happend.symm
  · have happend := read_header_append h (l.take i) (l.drop i)
    have hall := read_header_all h hpart
    rw [List.take_append_drop, hdone, if_neg hpart, List.length_take, Nat.min_eq_left hle] at happend
    obtain ⟨hstate, hi⟩ := Prod.mk.inj happend
    have hzero : (read_header (read_header state (l.take i)).1 (l.drop i)).2 = 0 := by omega
    have hle4 := (read_header_le h (l.take i)).1
    -- a matcher that takes nothing stays in its state
    generalize (read_header state (l.take i)).1 = st at *
    cases hrest : l.drop i with
    | nil =>
      rw [hrest] at hstate
      exact absurd hstate.symm hpart
    | cons c rest =>
      rw [hrest, read_header_cons (by omega)] at hzero
      exact absurd hzero (Nat.succ_ne_zero _)

theorem delim_take_succ {c : Char} (h : delim[state]? = some c) :
    delim.take (state + 1) = delim.take state ++ [c] := by
  rw [List.take_add_one, h]
  rfl

/-- The state counts how much of the blank line stands at the end. -/
theorem read_header_suffix (h : state ≤ 4) (l : text) :
    ∃ before, delim.take state ++ l.take (read_header state l).2 =
      before ++ delim.take (read_header state l).1 := by
  induction l generalizing state with
  | nil => exact ⟨[], by simp [read_header]⟩
  | cons c l ih =>
    rcases Nat.lt_or_eq_of_le h with hlt | rfl
    · obtain ⟨before, hbefore⟩ := ih (advance_le state c)
      rw [read_header_cons hlt, List.take_succ_cons]
      by_cases hc : delim[state]? = some c
      · have hadvance : advance state c = state + 1 := if_pos hc
        refine ⟨before, ?_⟩
        rw [← hbefore, hadvance, delim_take_succ hc, List.append_assoc]
        rfl
      · have hadvance : advance state c = 0 := if_neg hc
        refine ⟨delim.take state ++ c :: before, ?_⟩
        rw [List.append_assoc, List.cons_append, ← hbefore, hadvance]
        rfl
    · exact ⟨[], by simp [read_header_done]⟩

theorem crs_concat (l : text) (c : Char) :
    crs (l ++ [c]) = if c = '\r' then crs l + 1 else 0 := by
  unfold crs
  rw [List.reverse_concat, List.takeWhile_cons]
  by_cases hc : c = '\r'
  · simp [hc]
  · simp [hc]

/-- A state that is not the last is odd behind an odd number of CRs. -/
theorem read_header_parity (l : text) :
    (read_header 0 l).1 = 4 ∨ (read_header 0 l).1 % 2 = crs l % 2 := by
  induction l using List.reverseRecOn with
  | nil => exact Or.inr rfl
  | append_singleton l c ih =>
    have hle := (read_header_le (Nat.zero_le 4) l).1
    rw [read_header_append (Nat.zero_le 4)]
    rcases ih with h4 | hparity
    · rw [if_pos h4]
      exact Or.inl h4
    · by_cases h4 : (read_header 0 l).1 = 4
      · rw [if_pos h4]
        exact Or.inl h4
      · rw [if_neg h4, crs_concat]
        generalize (read_header 0 l).1 = st at *
        have hstep : read_header st [c] = (advance st c, 1) := by
          rw [read_header_cons (by omega)]
          rfl
        rw [hstep]
        dsimp only
        have hst : st = 0 ∨ st = 1 ∨ st = 2 ∨ st = 3 := by omega
        by_cases hcr : c = '\r'
        · rw [if_pos hcr, hcr]
          rcases hst with rfl | rfl | rfl | rfl <;> simp [advance, delim] <;> omega
        · rw [if_neg hcr]
          rcases hst with rfl | rfl | rfl | rfl <;> simp [advance, delim, Ne.symm hcr] <;> split <;>
            simp

/-- In front of the first blank line the matcher is not done, nor half done. -/
theorem front_state (h : First delim front (front ++ delim ++ body)) :
    (read_header 0 front).1 ≠ 4 ∧ (read_header 0 front).1 ≠ 2 := by
  obtain ⟨before, hbefore⟩ := read_header_suffix (Nat.zero_le 4) front
  have hdelim : delim.length = 4 := rfl
  have hno4 : (read_header 0 front).1 ≠ 4 := by
    intro h4
    rw [h4] at hbefore
    have htake : front.take (read_header 0 front).2 = before ++ delim := hbefore
    have hsplit : front = before ++ delim ++ front.drop (read_header 0 front).2 := by
      rw [← htake, List.take_append_drop]
    have hle := h.first before (front.drop (read_header 0 front).2 ++ delim ++ body) (by
      rw [← List.append_assoc, ← List.append_assoc, ← hsplit])
    have hlen := congrArg List.length hsplit
    simp only [List.length_append] at hlen
    omega
  refine ⟨hno4, fun h2 => ?_⟩
  rw [h2, read_header_all (Nat.zero_le 4) hno4, List.take_length] at hbefore
  have hfront : front = before ++ ['\r', '\n'] := hbefore
  have hle := h.first before (['\r', '\n'] ++ body) (by
    rw [hfront]
    simp [delim])
  have hlen := congrArg List.length hfront
  simp only [List.length_append, List.length_cons, List.length_nil] at hlen
  omega

/-- Behind an even number of CRs the matcher ends with the first blank line. Behind an odd number
it is half done there. -/
theorem header_read (h : First delim front (front ++ delim ++ body)) :
    read_header 0 (front ++ delim) =
      (if crs front % 2 = 0 then 4 else 2, (front ++ delim).length) := by
  obtain ⟨hno4, hno2⟩ := front_state h
  have hle := (read_header_le (Nat.zero_le 4) front).1
  have hparity := (read_header_parity front).resolve_left hno4
  rw [read_header_append (Nat.zero_le 4), if_neg hno4, List.length_append]
  generalize (read_header 0 front).1 = st at *
  have hst : st = 0 ∨ st = 1 ∨ st = 3 := by omega
  rcases hst with rfl | rfl | rfl
  · rw [if_pos hparity.symm]
    rfl
  · rw [← hparity]
    rfl
  · rw [← hparity]
    rfl

/-- Where the matcher ends. -/
theorem skips_iff (h : First delim front (front ++ delim ++ body)) (skipped : text) :
    Skips front skipped ↔
      read_header 0 (front ++ delim ++ skipped) = (4, (front ++ delim ++ skipped).length) := by
  have hread := header_read h
  unfold Skips
  rw [read_header_append (Nat.zero_le 4), hread]
  by_cases heven : crs front % 2 = 0
  · rw [if_pos heven, if_pos heven, if_pos rfl]
    constructor
    · rintro rfl
      rw [List.append_nil]
    · intro heq
      have hlen := (Prod.mk.inj heq).2
      simp only [List.length_append] at hlen
      exact List.length_eq_zero_iff.mp (by omega)
  · rw [if_neg heven, if_neg heven, if_neg (by simp), @List.length_append _ (front ++ delim)]
    dsimp only
    constructor
    · intro hskip
      rw [hskip]
      rfl
    · intro heq
      obtain ⟨hstate, hlen⟩ := Prod.mk.inj heq
      exact Prod.ext hstate (by dsimp only; omega)

/-! ## The value of the field -/

/-- The characters that are passed over in front of a value, and those that end it. -/
def isSep (c : Char) : Bool := decide (c ∈ [':', ' '])
def isStop (c : Char) : Bool := decide (c ∈ ['\r', '\n', '\t', ' '])

theorem header_value_eq {name rest : text} (hfirst : First name front header)
    (hrest : header = front ++ name ++ rest) :
    header_value header name =
      match rest.dropWhile isSep with
      | [] => []
      | c :: t => if t.dropWhile (fun c => !isStop c) = [] then []
        else c :: t.takeWhile fun c => !isStop c := by
  have hpos : find name header = some front.length := find_eq_some.mpr ⟨front, hfirst, rfl⟩
  have hsep : (fun c : Char => !decide (c ∉ [':', ' '])) = isSep := by
    funext c
    simp [isSep]
  have hstop : (fun c : Char => decide (c ∈ ['\r', '\n', '\t', ' '])) = isStop := rfl
  unfold header_value find_first_not_of find_first_of
  rw [hpos, hrest, hstop]
  dsimp only
  rw [find_from_append _ (front ++ name) rest (List.length_append ..).symm, hsep]
  have hsplit := @List.takeWhile_append_dropWhile _ isSep rest
  cases hdrop : rest.dropWhile isSep with
  | nil => rw [if_pos rfl]
  | cons c t =>
    rw [if_neg (List.cons_ne_nil c t)]
    dsimp only
    rw [hdrop] at hsplit
    have hfront : front ++ name ++ rest =
        (front ++ name ++ rest.takeWhile isSep ++ [c]) ++ t := by
      rw [List.append_assoc _ [c], List.singleton_append, List.append_assoc (front ++ name), hsplit]
    have hlen : front.length + name.length + (rest.takeWhile isSep).length + 1 =
        (front ++ name ++ rest.takeWhile isSep ++ [c]).length := by
      simp only [List.length_append, List.length_cons, List.length_nil]
    rw [hfront, find_from_append _ _ t hlen]
    by_cases hend : t.dropWhile (fun c => !isStop c) = []
    · simp only [if_pos hend]
    · have hparts := @List.takeWhile_append_dropWhile _ (fun c => !isStop c) t
      simp only [if_neg hend]
      have hvalue : front ++ name ++ rest.takeWhile isSep ++ [c] ++ t =
          (front ++ name ++ rest.takeWhile isSep) ++
            ((c :: t.takeWhile fun c => !isStop c) ++ t.dropWhile fun c => !isStop c) := by
        rw [List.cons_append, hparts, List.append_assoc _ [c]]
        rfl
      rw [hvalue]
      apply substr_append
      · simp only [List.length_append]
      · rw [List.length_cons]
        omega

theorem value_iff : Value header value ↔
    header_value header content_length = value ∧ value ≠ [] := by
  constructor
  · rintro ⟨front, seps, stop, rest, hfirst, hheader, hseps, ⟨c, l, rfl, hc, hl⟩, hstop⟩
    rw [header_value_eq hfirst hheader]
    have hc' : isSep c = false := decide_eq_false hc
    have hstop' : isStop stop = true := decide_eq_true hstop
    have hdrop : (seps ++ (c :: l ++ stop :: rest)).dropWhile isSep = c :: (l ++ stop :: rest) := by
      have hall : ∀ d ∈ seps, isSep d = true := fun d hd => decide_eq_true (hseps d hd)
      rw [List.dropWhile_append_of_pos hall, List.cons_append,
        List.dropWhile_cons_of_neg (by simp [hc'])]
    have hno : ∀ d ∈ l, (!isStop d) = true := by
      intro d hd
      rw [Bool.not_eq_true']
      exact decide_eq_false (hl d hd)
    rw [hdrop]
    dsimp only
    rw [List.dropWhile_append_of_pos hno, List.takeWhile_append_of_pos hno,
      List.dropWhile_cons_of_neg (by simp [hstop']), List.takeWhile_cons_of_neg (by simp [hstop']),
      if_neg (List.cons_ne_nil _ _), List.append_nil]
    exact ⟨rfl, List.cons_ne_nil c l⟩
  · rintro ⟨hvalue, hne⟩
    cases hpos : find content_length header with
    | none =>
      unfold header_value at hvalue
      rw [hpos] at hvalue
      exact absurd hvalue.symm hne
    | some pos =>
      obtain ⟨front, hfirst, -⟩ := find_eq_some.mp hpos
      obtain ⟨rest, hrest⟩ := hfirst.found
      rw [header_value_eq hfirst hrest] at hvalue
      have hsplit := @List.takeWhile_append_dropWhile _ isSep rest
      cases hdrop : rest.dropWhile isSep with
      | nil =>
        rw [hdrop] at hvalue
        exact absurd hvalue.symm hne
      | cons c t =>
        rw [hdrop] at hvalue hsplit
        dsimp only at hvalue
        cases hend : t.dropWhile (fun c => !isStop c) with
        | nil =>
          rw [if_pos hend] at hvalue
          exact absurd hvalue.symm hne
        | cons stop rest' =>
          rw [if_neg (by simp [hend])] at hvalue
          have hparts := @List.takeWhile_append_dropWhile _ (fun c => !isStop c) t
          rw [hend] at hparts
          subst hvalue
          refine ⟨front, rest.takeWhile isSep, stop, rest', hfirst, ?_, ?_, ⟨c, _, rfl, ?_, ?_⟩, ?_⟩
          · rw [hrest, List.cons_append, hparts, hsplit]
          · intro d hd
            have hsep : isSep d = true := List.mem_takeWhile_imp hd
            exact of_decide_eq_true hsep
          · have hhead := @List.head_dropWhile_not _ isSep rest (by simp [hdrop])
            simp only [hdrop, List.head_cons] at hhead
            exact of_decide_eq_false hhead
          · intro d hd
            have hno := List.mem_takeWhile_imp hd
            rw [Bool.not_eq_true'] at hno
            exact of_decide_eq_false hno
          · have hhead := @List.head_dropWhile_not _ (fun c => !isStop c) t (by simp [hend])
            simp only [hend, List.head_cons, Bool.not_eq_false'] at hhead
            exact of_decide_eq_true hhead

/-! ## What is received -/

/-- The variables when the bytes `p` were received, in whichever pieces. -/
def received (buf p : text) : response :=
  let (state, i) := read_header 0 p
  if state = sizeof_delim - 1 then
    { header := p.take i, bytes_sofar := (p.drop i).length, state
      bytes_expected := extract (header_value (p.take i) content_length) (-2)
      buf := buf ++ p.drop i }
  else { header := p, state, buf }

theorem received_done {p : text} {i : Nat} (h : read_header 0 p = (4, i)) :
    received buf p =
      { header := p.take i, bytes_sofar := (p.drop i).length, state := 4
        bytes_expected := extract (header_value (p.take i) content_length) (-2)
        buf := buf ++ p.drop i } := by
  unfold received
  rw [h]
  rfl

theorem received_undone {p : text} (h : (read_header 0 p).1 ≠ 4) :
    received buf p = { header := p, state := (read_header 0 p).1, buf } :=
  if_neg h

/-- Behind the header all bytes are appended. -/
theorem receive_body {s : response} (h4 : s.state = 4)
    (hexpected : s.bytes_expected = extract (header_value s.header content_length) (-2))
    (piece : text) :
    receive s piece =
      { s with bytes_sofar := s.bytes_sofar + piece.length, buf := s.buf ++ piece } := by
  obtain ⟨header, bytes_sofar, bytes_expected, state, buf⟩ := s
  dsimp only at h4 hexpected
  subst h4 hexpected
  unfold receive
  by_cases hagain : extract (header_value header content_length) (-2) = -1
  · simp [sizeof_delim, hagain]
  · simp [sizeof_delim, hagain]

/-- In the header the matcher goes on. -/
theorem receive_header {s : response} (hlt : s.state < 4) (piece : text) :
    receive s piece =
      let r := read_header s.state piece
      let header := s.header ++ piece.take r.2
      if r.1 = 4 then
        { header
          bytes_sofar := s.bytes_sofar + (piece.drop r.2).length
          bytes_expected := if s.bytes_expected = -1 then
            extract (header_value header content_length) (-2) else s.bytes_expected
          state := 4
          buf := s.buf ++ piece.drop r.2 }
      else { s with header, state := r.1 } := by
  have hstate : s.state + 1 < sizeof_delim := by
    unfold sizeof_delim
    omega
  have hsize : sizeof_delim - 1 = 4 := rfl
  unfold receive
  simp only [if_pos hstate, hsize]
  by_cases h4 : (read_header s.state piece).1 = 4
  · rw [if_pos h4, if_pos h4, h4]
    by_cases hexpected : s.bytes_expected = -1
    · simp only [if_pos hexpected]
    · simp only [if_neg hexpected]
  · rw [if_neg h4, if_neg h4]

/-- One turn takes a piece to what was received. -/
theorem receive_received (buf p piece : text) :
    receive (received buf p) piece = received buf (p ++ piece) := by
  have hle := read_header_le (Nat.zero_le 4) p
  have happend := read_header_append (Nat.zero_le 4) p piece
  by_cases h4 : (read_header 0 p).1 = 4
  · obtain ⟨i, hi⟩ : ∃ i, read_header 0 p = (4, i) := ⟨_, Prod.ext h4 rfl⟩
    rw [if_pos h4, hi] at happend
    rw [hi] at hle
    rw [received_done hi, received_done happend, List.take_append_of_le_length hle.2,
      List.drop_append_of_le_length hle.2, receive_body rfl rfl]
    simp
  · rw [if_neg h4] at happend
    have hall := read_header_all (Nat.zero_le 4) h4
    rw [received_undone h4, receive_header (by dsimp only; omega)]
    dsimp only
    generalize hr : read_header (read_header 0 p).1 piece = r at happend ⊢
    by_cases hr4 : r.1 = 4
    · rw [if_pos hr4]
      rw [hr4] at happend
      rw [received_done happend, List.take_length_add_append, List.drop_length_add_append]
      simp
    · have hrall : r.2 = piece.length := by
        rw [← hr]
        apply read_header_all hle.1
        rw [hr]
        exact hr4
      rw [if_neg hr4, received_undone (by rw [happend]; exact hr4), happend, hrall, List.take_length]

/-! ## Where the loop stops -/

/-- The loop stops when it has received `p`. -/
def Done (p : text) : Prop :=
  ∃ i, read_header 0 p = (4, i) ∧
    ((p.drop i).length : Int) = extract (header_value (p.take i) content_length) (-2)

theorem done_iff {p : text} :
    (received buf p).bytes_sofar = (received buf p).bytes_expected ↔ Done p := by
  unfold Done
  by_cases h4 : (read_header 0 p).1 = 4
  · obtain ⟨i, hi⟩ : ∃ i, read_header 0 p = (4, i) := ⟨_, Prod.ext h4 rfl⟩
    rw [received_done hi]
    constructor
    · intro h
      exact ⟨i, hi, h⟩
    · rintro ⟨j, hj, h⟩
      obtain rfl := (Prod.mk.inj (hi.symm.trans hj)).2
      exact h
  · rw [received_undone h4]
    constructor
    · intro h
      exact absurd h (by simp)
    · rintro ⟨i, hi, -⟩
      exact absurd (congrArg Prod.fst hi) h4

/-- It does not stop twice. -/
theorem Done.unique {p q : text} (h : Done p) (h' : Done (p ++ q)) : q = [] := by
  obtain ⟨i, hi, hlen⟩ := h
  obtain ⟨j, hj, hlen'⟩ := h'
  have hle := (read_header_le (Nat.zero_le 4) p).2
  rw [hi] at hle
  dsimp only at hle
  rw [read_header_append (Nat.zero_le 4), hi, if_pos rfl] at hj
  obtain rfl := (Prod.mk.inj hj).2
  rw [List.take_append_of_le_length hle, List.drop_append_of_le_length hle, ← hlen,
    List.length_append] at hlen'
  exact List.length_eq_zero_iff.mp (by omega)

theorem receive_response_cons {s : response} {piece : text} {rest : List text}
    (hpiece : piece ≠ []) (hs : s.bytes_sofar ≠ s.bytes_expected) :
    receive_response (piece :: rest) s = receive_response rest (receive s piece) := by
  cases piece with
  | nil => exact absurd rfl hpiece
  | cons c piece =>
    rw [receive_response.eq_def, if_neg hs]

/-- Where the loop returns, it is done with some of the pieces. -/
theorem receive_response_stops {p : text} {r : Int × text} (hpieces : ∀ piece ∈ pieces, piece ≠ [])
    (h : receive_response pieces (received buf p) = some r) :
    ∃ used rest, pieces = used ++ rest ∧ Done (p ++ used.flatten) ∧
      r = ((received buf (p ++ used.flatten)).bytes_sofar,
        (received buf (p ++ used.flatten)).buf) := by
  induction pieces generalizing p with
  | nil =>
    rw [receive_response] at h
    split at h
    next hdone => exact ⟨[], [], rfl, by simpa using done_iff.mp hdone, by simpa using h.symm⟩
    next => cases h
  | cons piece pieces ih =>
    by_cases hdone : (received buf p).bytes_sofar = (received buf p).bytes_expected
    · rw [receive_response.eq_def, if_pos hdone] at h
      exact ⟨[], piece :: pieces, rfl, by simpa using done_iff.mp hdone, by simpa using h.symm⟩
    · obtain ⟨hpiece, hrest⟩ := List.forall_mem_cons.mp hpieces
      rw [receive_response_cons hpiece hdone, receive_received] at h
      obtain ⟨used, rest, rfl, hused, hr⟩ := ih hrest h
      rw [List.append_assoc] at hused hr
      exact ⟨piece :: used, rest, rfl, hused, hr⟩

/-- When some of the pieces make it done, it returns what was received by then. -/
theorem receive_response_done {p : text} {used rest : List text}
    (hpieces : ∀ piece ∈ used ++ rest, piece ≠ []) (h : Done (p ++ used.flatten)) :
    receive_response (used ++ rest) (received buf p) =
      some ((received buf (p ++ used.flatten)).bytes_sofar,
        (received buf (p ++ used.flatten)).buf) := by
  induction used generalizing p with
  | nil =>
    rw [List.flatten_nil, List.append_nil] at h ⊢
    rw [receive_response.eq_def, if_pos (done_iff.mpr h)]
  | cons piece used ih =>
    rw [List.flatten_cons, ← List.append_assoc] at h ⊢
    obtain ⟨hpiece, hrest⟩ := List.forall_mem_cons.mp hpieces
    have hundone : (received buf p).bytes_sofar ≠ (received buf p).bytes_expected := by
      intro hdone
      have hp := done_iff.mp hdone
      rw [List.append_assoc] at h
      exact hpiece (List.append_eq_nil_iff.mp (hp.unique h)).1
    rw [List.cons_append, receive_response_cons hpiece hundone, receive_received]
    exact ih hrest h

/-! ## Each response -/

/-- The matcher does not end in front of the first blank line. -/
theorem matched_behind (h : First delim front (front ++ delim ++ body)) {i : Nat}
    (hi : read_header 0 (front ++ delim ++ body) = (4, i)) :
    ∃ skipped rest, body = skipped ++ rest ∧ i = (front ++ delim ++ skipped).length := by
  obtain ⟨before, hbefore⟩ := read_header_suffix (Nat.zero_le 4) (front ++ delim ++ body)
  have hle := (read_header_le (Nat.zero_le 4) (front ++ delim ++ body)).2
  rw [hi] at hbefore hle
  have htake : (front ++ delim ++ body).take i = before ++ delim := hbefore
  have hfirst := h.first before ((front ++ delim ++ body).drop i) (by
    rw [← htake, List.take_append_drop])
  have hlen := congrArg List.length htake
  have hdelim : delim.length = 4 := rfl
  simp only [List.length_append, List.length_take] at hlen hle
  refine ⟨body.take (i - (front ++ delim).length), body.drop (i - (front ++ delim).length),
    (List.take_append_drop _ _).symm, ?_⟩
  simp only [List.length_append, List.length_take]
  omega

/-- The bytes of the stream that are the header for the code, and what is behind it. -/
theorem split_behind {p q rest : text} (h : p ++ q = header ++ rest)
    (hle : header.length ≤ p.length) :
    ∃ middle, p = header ++ middle ∧ rest = middle ++ q := by
  have hp : p.take header.length = header := by
    have htake := congrArg (List.take header.length) h
    rwa [List.take_append_of_le_length hle, List.take_left] at htake
  have hsplit := List.take_append_drop header.length p
  rw [hp] at hsplit
  refine ⟨p.drop header.length, hsplit.symm, ?_⟩
  rw [← hsplit, List.append_assoc] at h
  exact (List.append_cancel_left h).symm

theorem done_header {middle : text} (hread : read_header 0 header = (4, header.length)) :
    (received buf (header ++ middle)).bytes_sofar = middle.length ∧
      (received buf (header ++ middle)).buf = buf ++ middle ∧
      (Done (header ++ middle) ↔
        (middle.length : Int) = extract (header_value header content_length) (-2)) := by
  have happend := read_header_append (Nat.zero_le 4) header middle
  rw [hread, if_pos rfl] at happend
  have hdone := @received_done buf _ _ happend
  rw [List.take_left, List.drop_left] at hdone
  rw [hdone]
  refine ⟨rfl, rfl, ?_⟩
  rw [← @done_iff buf, hdone]

theorem downloads_iff (h : Response front body n pieces) (buf : text) :
    Downloads body n buf (receive_response pieces { buf }) ↔ Right front body n pieces := by
  have hstart : ({ buf } : response) = received buf [] := rfl
  have hpieces : ∀ piece ∈ pieces, piece ≠ [] := by
    rintro piece hpiece rfl
    exact absurd (h.pieces [] hpiece).1 (by decide)
  have hstream := h.stream
  unfold Downloads
  rw [hstart]
  constructor
  · intro hgot
    obtain ⟨used, rest', rfl, hused, hr⟩ := receive_response_stops hpieces hgot
    rw [List.nil_append] at hused hr
    rw [List.flatten_append] at hstream
    obtain ⟨i, hi, hlen⟩ := hused
    have hle := (read_header_le (Nat.zero_le 4) used.flatten).2
    have happend := read_header_append (Nat.zero_le 4) used.flatten rest'.flatten
    rw [hi, if_pos rfl, hstream] at happend
    obtain ⟨skipped, rest, rfl, hskipped⟩ := matched_behind h.first happend
    rw [← List.append_assoc] at hstream
    rw [hi] at hle
    obtain ⟨middle, hmiddle, hrest⟩ := split_behind hstream (hskipped ▸ hle)
    have hread := read_header_take (Nat.zero_le 4) hi
    rw [hmiddle, hskipped, List.take_left] at hread
    obtain ⟨hsofar, hbuf, hdone⟩ := @done_header _ buf middle hread
    rw [hmiddle, hsofar, hbuf] at hr
    obtain ⟨hn, htake⟩ := Prod.mk.inj hr
    have hn : n = middle.length := by omega
    have hlength := hdone.mp (hmiddle ▸ ⟨i, hi, hlen⟩)
    refine ⟨skipped, rest, _, rfl, (skips_iff h.first skipped).mpr hread,
      value_iff.mpr ⟨rfl, ?_⟩, ?_, ⟨used, rest', rfl, ?_⟩, ?_⟩
    · intro hnil
      rw [hnil] at hlength
      exact absurd hlength (by simp [extract])
    · rw [← hlength, hn]
    · rw [hmiddle, List.length_append, hn]
    · rw [List.append_cancel_left htake, hrest, hn, List.take_left]
  · rintro ⟨skipped, rest, value, rfl, hskips, hvalue, hlength, ⟨used, rest', rfl, hends⟩, htake⟩
    have hread := (skips_iff h.first skipped).mp hskips
    rw [List.flatten_append, ← List.append_assoc] at hstream
    obtain ⟨middle, hmiddle, rfl⟩ := split_behind hstream (by omega)
    obtain ⟨hsofar, hbuf, hdone⟩ := @done_header _ buf middle hread
    have hn : n = middle.length := by
      rw [hmiddle, List.length_append] at hends
      omega
    have hused : Done ([] ++ used.flatten) := by
      rw [List.nil_append, hmiddle, hdone, (value_iff.mp hvalue).1, hlength, hn]
    rw [receive_response_done hpieces hused, List.nil_append, hmiddle, hsofar, hbuf, ← htake, hn,
      List.take_left]

/-- A body is downloaded, just when the matcher and the header agree with the response, and a piece
ends where the body does. -/
theorem http_get_iff {request : text} {sd : Int} {rets : List Int} (hsent : Sent request sd rets)
    (h : Response front body n pieces) (buf : text) :
    Downloads body n buf (http_get request sd rets pieces buf) ↔ Right front body n pieces := by
  have hget : http_get request sd rets pieces buf = receive_response pieces { buf } := by
    unfold http_get
    rw [if_pos hsent.1, hsent.2]
    exact if_neg (Int.lt_irrefl _)
  rw [hget]
  exact downloads_iff h buf

/-- The header and the first byte of the body in one piece, and the second in another. -/
theorem http_get_iff_pieces :
    let front := "HTTP/1.0 200 OK\r\nContent-Length: 2".toList
    Downloads ['a', 'b'] 2 [] (http_get ['G'] 3 [1] [front ++ delim ++ ['a'], ['b']] []) := by
  intro front
  have hresponse : Response front ['a', 'b'] 2 [front ++ delim ++ ['a'], ['b']] := by
    refine ⟨first_of_find (by decide), by decide, by decide, by decide, by decide⟩
  refine (http_get_iff ⟨by decide, by decide⟩ hresponse []).mpr ?_
  have hskips : Skips front [] := by
    unfold Skips
    decide
  refine ⟨[], ['a', 'b'], ['2'], rfl, hskips, value_iff.mpr ⟨by decide, by decide⟩, by decide,
    ⟨_, [], (List.append_nil _).symm, by decide⟩, rfl⟩

/-- A CR in front of the blank line. The matcher misses it, and waits for another. -/
theorem http_get_not_framed :
    let front := "HTTP/1.0 200 OK\r\nContent-Length: 2\r\nX:\r".toList
    Response front ['a', 'b'] 2 [front ++ delim ++ ['a', 'b']] ∧ Sent ['G'] 3 [1] ∧
      ¬ Downloads ['a', 'b'] 2 [] (http_get ['G'] 3 [1] [front ++ delim ++ ['a', 'b']] []) := by
  intro front
  refine ⟨⟨first_of_find (by decide), by decide, by decide, by decide, by decide⟩,
    ⟨by decide, by decide⟩, ?_⟩
  have hgot : http_get ['G'] 3 [1] [front ++ delim ++ ['a', 'b']] [] = none := by decide
  unfold Downloads
  rw [hgot]
  exact fun h => nomatch h

end socle.inet
