-- Which bytes of an entry a pattern is looked for in, and what range is reported
-- for a match (simpleMatch, regexMatch and flowMatch::match of signature.hpp).
-- The second half of the pair of `search_function` is the length of the string
-- that was searched, not of the match.
import Socle.FlowMatch

namespace socle.flows

/-! ## What is examined -/

namespace simpleMatch

/-- Where the view starts that reflects the limits. -/
def view_pos (m : simpleMatch) (data : List UInt8) : Nat :=
  if m.match_limits_bytes > 0 ∨ m.match_limits_offset > 0 then
    if m.match_limits_offset.toNat < data.length then m.match_limits_offset.toNat
    else data.length - 1
  else 0

/-- How many bytes `match` is given: the size of the view, as `unsigned int`. -/
def view_size (m : simpleMatch) (data : List UInt8) : Nat :=
  (m.view data).length % 2 ^ 32

/-- The byte at place `i` of the entry is examined. No empty buffer is. -/
def Examines (m : simpleMatch) (data : List UInt8) (i : Nat) : Prop :=
  data ≠ [] ∧ m.view_pos data ≤ i ∧ i < m.view_pos data + m.view_size data

/-- What is reported for the entry. -/
def match_entry (m : simpleMatch) (data : List UInt8) : range :=
  if data = [] then NULLRANGE else m.match_view data

/-! ## The law -/

/-- The bytes that the limits are about: [offset, offset + bytes), or to the end when bytes is 0. -/
def InWindow (m : simpleMatch) (data : List UInt8) (i : Nat) : Prop :=
  i < data.length ∧ m.match_limits_offset.toNat ≤ i ∧
    (m.match_limits_bytes = 0 ∨ i < m.match_limits_offset.toNat + m.match_limits_bytes.toNat)

def window (m : simpleMatch) (data : List UInt8) : List UInt8 :=
  (data.drop m.match_limits_offset.toNat).take
    (if m.match_limits_bytes = 0 then data.length else m.match_limits_bytes.toNat)

/-- The window is what is examined, a match is reported when the pattern occurs in it, and the range
that is reported tells where: the places are counted from the start of the window. -/
structure Windowed (m : simpleMatch) (data : List UInt8) : Prop where
  examined : ∀ i, m.Examines data i ↔ m.InWindow data i
  reported : m.match_entry data ≠ NULLRANGE ↔ m.expr <:+: m.window data
  inside : m.match_entry data ≠ NULLRANGE →
    0 ≤ (m.match_entry data).1 ∧ (m.match_entry data).1 ≤ (m.match_entry data).2 + 1 ∧
      (m.match_entry data).2 < (m.window data).length
  bytes : m.match_entry data ≠ NULLRANGE →
    ((m.window data).drop (m.match_entry data).1.toNat).take
      ((m.match_entry data).2 + 1 - (m.match_entry data).1).toNat = m.expr

/-- There are no limits, and the entry is one that an `unsigned int` can count, or the limit of bytes
is there and the offset is inside the entry. -/
def Limited (m : simpleMatch) (data : List UInt8) : Prop :=
  (m.match_limits_offset = 0 ∧ m.match_limits_bytes = 0 ∧ data.length < 2 ^ 32) ∨
    (m.match_limits_offset.toNat < data.length ∧ m.match_limits_bytes ≠ 0)

/-- The pattern is not empty, and in an entry that is not empty it occurs nowhere in the window or is
all of it. -/
def Fills (m : simpleMatch) (data : List UInt8) : Prop :=
  m.expr ≠ [] ∧ (data = [] ∨ (m.Limited data ∧
    (m.expr <:+: m.window data → m.expr = m.window data ∧ m.expr.length < 2 ^ 31)))

end simpleMatch

/-! ## Finding -/

section
variable {expr str : List UInt8}

theorem find_some {pos : Nat} (h : find expr str = some pos) :
    pos ≤ str.length ∧ expr <+: str.drop pos := by
  induction str generalizing pos with
  | nil =>
    simp only [find] at h
    split at h
    next hnil =>
      cases h
      simp [hnil]
    next => cases h
  | cons b rest ih =>
    simp only [find] at h
    split at h
    next hahead =>
      cases h
      exact ⟨Nat.zero_le _, by simpa using hahead⟩
    next =>
      obtain ⟨p, hp, rfl⟩ := Option.map_eq_some_iff.mp h
      obtain ⟨hle, hahead⟩ := ih hp
      exact ⟨by simpa using hle, by simpa using hahead⟩

theorem find_none_iff (expr str : List UInt8) : find expr str = none ↔ ¬ expr <:+: str := by
  induction str with
  | nil => simp [find]
  | cons b rest ih =>
    rw [find, List.infix_cons_iff]
    by_cases hahead : expr.isPrefixOf (b :: rest) = true
    · have hfront : expr <+: b :: rest := List.isPrefixOf_iff_prefix.mp hahead
      simp [hahead, hfront]
    · have hfront : ¬ expr <+: b :: rest := fun h => hahead (List.isPrefixOf_iff_prefix.mpr h)
      simp [hahead, hfront, ih]

theorem find_self (expr : List UInt8) : find expr expr = some 0 := by
  cases expr with
  | nil => simp [find]
  | cons b rest => simp [find]

end

theorem to_int_small {n : Nat} (h : n < 2 ^ 31) : to_int n = n := by
  have hmod : n % 2 ^ 32 = n := Nat.mod_eq_of_lt (by omega)
  rw [to_int, hmod, if_pos h]

/-- A number of 32 bits that is positive as an `int` is itself. -/
theorem to_int_pos {n : Nat} (hn : n < 2 ^ 32) (h : 0 < to_int n) : to_int n = n ∧ n < 2 ^ 31 := by
  rw [to_int, Nat.mod_eq_of_lt hn] at h ⊢
  split at h
  next hlt => exact ⟨if_pos hlt, hlt⟩
  next => omega

/-! ## The window -/

namespace simpleMatch

variable {m : simpleMatch} {data : List UInt8}

/-- The bytes that are examined. -/
def searched (m : simpleMatch) (data : List UInt8) : List UInt8 :=
  (data.drop (m.view_pos data)).take (m.view_size data)

theorem view_searched (m : simpleMatch) (data : List UInt8) :
    (m.view data).take (m.view_size data) = m.searched data := by
  have hview : ∃ len, m.view data = (data.drop (m.view_pos data)).take len := by
    unfold view view_pos
    split
    · exact ⟨_, rfl⟩
    · exact ⟨data.length, by simp⟩
  obtain ⟨len, hlen⟩ := hview
  have hle : m.view_size data ≤ len := by
    apply (Nat.mod_le _ _).trans
    rw [hlen]
    exact List.length_take_le _ _
  rw [searched, hlen, List.take_take, min_eq_left hle]

/-- `match` searches the examined bytes. -/
theorem match_view_eq (m : simpleMatch) (data : List UInt8) :
    m.match_view data =
      let loc := search_function m.expr (m.searched data)
      if loc = NULLRANGE then NULLRANGE else (loc.1, loc.1 + loc.2 - 1) := by
  have hsize : (UInt32.ofNat (m.view data).length).toNat = m.view_size data := by
    simp [view_size]
  rw [match_view, match_, hsize, view_searched]

theorem pos_iff (n : UInt32) : n > 0 ↔ 0 < n.toNat := by
  rw [gt_iff_lt, UInt32.lt_iff_toNat_lt, UInt32.toNat_zero]

theorem eq_zero_iff (n : UInt32) : n = 0 ↔ n.toNat = 0 := by
  rw [← UInt32.toNat_inj, UInt32.toNat_zero]

/-- Without limits the view is the entry. -/
theorem view_whole (ho : m.match_limits_offset.toNat = 0) (hb : m.match_limits_bytes.toNat = 0) :
    m.view_pos data = 0 ∧ m.view data = data := by
  have hno : ¬ (m.match_limits_bytes > 0 ∨ m.match_limits_offset > 0) := by
    rw [pos_iff, pos_iff]
    omega
  rw [view_pos, view, if_neg hno, if_neg hno]
  exact ⟨rfl, rfl⟩

/-- With an offset inside the entry, and a limit of bytes, the view goes on to the limit or to the
end, also when the sum of both wraps around. -/
theorem view_inside (ho : m.match_limits_offset.toNat < data.length)
    (hb : 0 < m.match_limits_bytes.toNat) :
    m.view_pos data = m.match_limits_offset.toNat ∧
      m.view data = (data.drop m.match_limits_offset.toNat).take m.match_limits_bytes.toNat := by
  have hyes : m.match_limits_bytes > 0 ∨ m.match_limits_offset > 0 :=
    Or.inl ((pos_iff _).mpr hb)
  rw [view_pos, view, if_pos hyes, if_pos hyes]
  simp only [if_pos ho, UInt32.toNat_add, true_and]
  split
  · rfl
  · rw [List.take_of_length_le (by rw [List.length_drop]; omega),
      List.take_of_length_le (by rw [List.length_drop]; omega)]

/-- With an offset inside the entry and no limit of bytes, the view is empty. -/
theorem view_empty (ho : m.match_limits_offset.toNat < data.length)
    (hpos : 0 < m.match_limits_offset.toNat) (hb : m.match_limits_bytes.toNat = 0) :
    m.view data = [] := by
  have hyes : m.match_limits_bytes > 0 ∨ m.match_limits_offset > 0 :=
    Or.inr ((pos_iff _).mpr hpos)
  have hsum : (m.match_limits_bytes + m.match_limits_offset).toNat < data.length := by
    rw [UInt32.toNat_add, hb]
    omega
  rw [view, if_pos hyes]
  simp only [if_pos hsum, hb, List.take_zero]

/-- With an offset past the end, the view is the last byte. -/
theorem view_last (hne : data ≠ []) (ho : data.length ≤ m.match_limits_offset.toNat) :
    m.view_pos data = data.length - 1 ∧ m.view_size data = 1 := by
  have hlength : 0 < data.length := List.length_pos_of_ne_nil hne
  have hyes : m.match_limits_bytes > 0 ∨ m.match_limits_offset > 0 :=
    Or.inr ((pos_iff _).mpr (by omega))
  have hsmall := m.match_limits_offset.toNat_lt
  rw [view_size, view_pos, view, if_pos hyes, if_pos hyes, if_neg (Nat.not_lt.mpr ho)]
  simp only [true_and, UInt32.toNat_add, List.length_take,
    List.length_drop]
  split
  · have hb : 0 < m.match_limits_bytes.toNat := by
      by_contra hzero
      omega
    have hmin : min m.match_limits_bytes.toNat (data.length - (data.length - 1)) = 1 := by omega
    rw [hmin]
    rfl
  · have hmin : min data.length (data.length - (data.length - 1)) = 1 := by omega
    rw [hmin]
    rfl

theorem window_length (m : simpleMatch) (data : List UInt8) :
    (m.window data).length = min (if m.match_limits_bytes = 0 then data.length
      else m.match_limits_bytes.toNat) (data.length - m.match_limits_offset.toNat) := by
  rw [window, List.length_take, List.length_drop]

/-- Such limits make the view the window. -/
theorem limited_view (h : m.Limited data) :
    m.view_pos data = m.match_limits_offset.toNat ∧ m.view data = m.window data ∧
      (m.window data).length < 2 ^ 32 := by
  rcases h with ⟨ho, hb, hsize⟩ | ⟨ho, hb⟩
  · have ho' : m.match_limits_offset.toNat = 0 := (eq_zero_iff _).mp ho
    obtain ⟨hpos, hview⟩ := @view_whole m data ho' ((eq_zero_iff _).mp hb)
    refine ⟨by rw [hpos, ho'], ?_, ?_⟩
    · simp [hview, window, ho', hb]
    · rw [window_length, if_pos hb]
      omega
  · have hb' : 0 < m.match_limits_bytes.toNat := by
      rw [ne_eq, eq_zero_iff] at hb
      omega
    have hsmall := m.match_limits_bytes.toNat_lt
    obtain ⟨hpos, hview⟩ := view_inside ho hb'
    refine ⟨hpos, ?_, ?_⟩
    · rw [hview, window, if_neg hb]
    · rw [window_length, if_neg hb]
      omega

theorem limited_searched (h : m.Limited data) : m.searched data = m.window data := by
  obtain ⟨-, hview, hsmall⟩ := limited_view h
  rw [← view_searched, view_size, hview, Nat.mod_eq_of_lt hsmall, List.take_length]

theorem limited_examines (h : m.Limited data) (i : Nat) : m.Examines data i ↔ m.InWindow data i := by
  obtain ⟨hpos, hview, hsmall⟩ := limited_view h
  have hsize : m.view_size data = (m.window data).length := by
    rw [view_size, hview, Nat.mod_eq_of_lt hsmall]
  rw [Examines, InWindow, hpos, hsize, window_length, ← List.length_pos_iff]
  split
  next hb =>
    simp only [hb, true_or, and_true]
    omega
  next hb =>
    simp only [hb, false_or]
    omega

/-- Other limits examine a byte behind the window, or leave one of it out. -/
theorem not_limited_examines (hne : data ≠ []) (h : ¬ m.Limited data) :
    ∃ i, ¬ (m.Examines data i ↔ m.InWindow data i) := by
  have hlength : 0 < data.length := List.length_pos_of_ne_nil hne
  unfold Limited at h
  rw [eq_zero_iff, ne_eq, eq_zero_iff] at h
  by_cases ho : m.match_limits_offset.toNat < data.length
  · have hb : m.match_limits_bytes.toNat = 0 := by
      by_contra hb
      exact h (Or.inr ⟨ho, hb⟩)
    by_cases hzero : m.match_limits_offset.toNat = 0
    · -- the size does not fit into an `unsigned int`
      obtain ⟨hpos, hview⟩ := @view_whole m data hzero hb
      refine ⟨(m.view data).length % 2 ^ 32, ?_⟩
      rw [Examines, InWindow, eq_zero_iff, hpos, view_size, hview, hzero, hb]
      have hsize : ¬ data.length < 2 ^ 32 := fun hlt => h (Or.inl ⟨hzero, hb, hlt⟩)
      omega
    · have hview := view_empty ho (by omega) hb
      refine ⟨m.match_limits_offset.toNat, ?_⟩
      rw [Examines, InWindow, eq_zero_iff, view_size, hview, List.length_nil, hb]
      omega
  · obtain ⟨hpos, hsize⟩ := view_last hne (Nat.not_lt.mp ho)
    refine ⟨data.length - 1, ?_⟩
    rw [Examines, InWindow, hpos, hsize]
    simp only [hne, ne_eq, not_false_iff, true_and]
    omega

/-! ## The range -/

/-- Without an occurrence nothing is reported. -/
theorem match_entry_none (h : m.Limited data) (hno : ¬ m.expr <:+: m.window data) :
    m.match_entry data = NULLRANGE := by
  unfold match_entry
  split
  · rfl
  · rw [match_view_eq, limited_searched h]
    simp [search_function, (find_none_iff _ _).mpr hno]

/-- With one, the range goes from it over as many bytes as were searched. -/
theorem match_entry_some (h : m.Limited data) (hne : data ≠ []) {pos : Nat}
    (hpos : find m.expr (m.window data) = some pos) (hr : m.match_entry data ≠ NULLRANGE) :
    m.match_entry data =
      (to_int pos, to_int pos + to_int (m.window data).length - 1) := by
  rw [match_entry, if_neg hne, match_view_eq, limited_searched h] at hr ⊢
  simp only [search_function, hpos] at hr ⊢
  split at hr
  · exact absurd rfl hr
  next hloc => rw [if_neg hloc]

/-- A window that is the pattern is reported as it is. -/
theorem match_entry_whole (h : m.Limited data) (hne : data ≠ []) (hexpr : m.expr ≠ [])
    (hwhole : m.expr = m.window data) (hint : m.expr.length < 2 ^ 31) :
    m.match_entry data = (0, (m.expr.length : Int) - 1) := by
  rw [match_entry, if_neg hne, match_view_eq, limited_searched h, ← hwhole]
  have hlen : 0 < m.expr.length := List.length_pos_of_ne_nil hexpr
  have hloc : search_function m.expr m.expr = (0, (m.expr.length : Int)) := by
    rw [search_function, find_self]
    simp only
    rw [to_int_small hint, to_int_small (by omega)]
    rfl
  simp only [hloc, NULLRANGE, Prod.mk.injEq, true_and]
  rw [if_neg (by omega), zero_add]

/-- A pattern that occurs, and is reported as the law says, is the whole window. -/
theorem whole_of_windowed (h : m.Limited data) (hne : data ≠ []) (hw : m.Windowed data)
    (hoccurs : m.expr <:+: m.window data) :
    m.expr = m.window data ∧ m.expr.length < 2 ^ 31 ∧ m.expr ≠ [] := by
  obtain ⟨-, -, hsmall⟩ := limited_view h
  have hr := hw.reported.mpr hoccurs
  obtain ⟨pos, hpos⟩ : ∃ pos, find m.expr (m.window data) = some pos := by
    rw [← Option.ne_none_iff_exists']
    intro hnone
    exact (find_none_iff _ _).mp hnone hoccurs
  obtain ⟨hle, -⟩ := find_some hpos
  have hrange := match_entry_some h hne hpos hr
  have hbytes := hw.bytes hr
  obtain ⟨hfirst, horder, hlast⟩ := hw.inside hr
  simp only [hrange] at hbytes hfirst horder hlast
  have hcount : to_int pos + to_int (m.window data).length - 1 + 1 - to_int pos =
      to_int (m.window data).length := by omega
  rw [hcount] at hbytes
  -- a range that is reported is not empty, so no `int` overflowed
  have hpositive : 0 < to_int (m.window data).length := by
    by_contra hnot
    have hcounted : to_int (m.window data).length = 0 := by omega
    have hnone : (m.window data).length = 0 := by
      rw [to_int, Nat.mod_eq_of_lt hsmall] at hcounted
      split at hcounted <;> omega
    have hstart : pos = 0 := by omega
    rw [hrange, hnone, hstart] at hr
    exact hr rfl
  obtain ⟨hlen, hint⟩ := to_int_pos hsmall hpositive
  have hzero : to_int pos = 0 := by omega
  rw [hzero, hlen, Int.toNat_zero, List.drop_zero, Int.toNat_natCast, List.take_length] at hbytes
  refine ⟨hbytes.symm, by rw [← hbytes]; exact hint, ?_⟩
  rw [← hbytes, ← List.length_pos_iff]
  omega

theorem Windowed.limited (hw : m.Windowed data) (hne : data ≠ []) : m.Limited data := by
  by_contra hnot
  obtain ⟨i, hi⟩ := not_limited_examines hne hnot
  exact hi (hw.examined i)

theorem Windowed.fills (hw : m.Windowed data) : m.Fills data := by
  have hexpr : m.expr ≠ [] := by
    intro hnil
    have hoccurs : m.expr <:+: m.window data := by simp [hnil]
    have hne : data ≠ [] := by
      intro hempty
      apply hw.reported.mpr hoccurs
      rw [match_entry, if_pos hempty]
    exact (whole_of_windowed (hw.limited hne) hne hw hoccurs).2.2 hnil
  refine ⟨hexpr, ?_⟩
  by_cases hne : data = []
  · exact Or.inl hne
  · refine Or.inr ⟨hw.limited hne, fun hoccurs => ?_⟩
    obtain ⟨hwhole, hint, -⟩ := whole_of_windowed (hw.limited hne) hne hw hoccurs
    exact ⟨hwhole, hint⟩

/-- In an empty entry nothing is examined, and nothing but the empty pattern occurs. -/
theorem windowed_nil (hexpr : m.expr ≠ []) : m.Windowed [] := by
  have hnull : m.match_entry [] = NULLRANGE := if_pos rfl
  refine ⟨fun i => ?_, ?_, fun hr => absurd hnull hr, fun hr => absurd hnull hr⟩
  · simp [Examines, InWindow]
  · simp [hnull, window, hexpr]

theorem Fills.windowed (h : m.Fills data) : m.Windowed data := by
  obtain ⟨hexpr, rfl | ⟨hlimited, hfills⟩⟩ := h
  · exact windowed_nil hexpr
  · by_cases hne : data = []
    · rw [hne]
      exact windowed_nil hexpr
    · by_cases hoccurs : m.expr <:+: m.window data
      · obtain ⟨hwhole, hint⟩ := hfills hoccurs
        have hentry := match_entry_whole hlimited hne hexpr hwhole hint
        have hlen : 0 < m.expr.length := List.length_pos_of_ne_nil hexpr
        have hr : m.match_entry data ≠ NULLRANGE := by
          rw [hentry, NULLRANGE, ne_eq, Prod.mk.injEq]
          omega
        refine ⟨limited_examines hlimited, by simp [hr, hoccurs], fun _ => ?_, fun _ => ?_⟩
        · rw [hentry, ← hwhole]
          simp only
          omega
        · rw [hentry, ← hwhole]
          simp
      · have hnull := match_entry_none hlimited hoccurs
        refine ⟨limited_examines hlimited, by simp [hnull, hoccurs], ?_, ?_⟩
        · exact fun hr => absurd hnull hr
        · exact fun hr => absurd hnull hr

end simpleMatch

/-- The window of an entry is examined, and its match reported as it is, when, and only when, the
pattern is not empty and the entry is empty, or the limits are absent or lie in the entry and the
pattern occurs nowhere in the window or is all of it. -/
theorem windows_are_matched (m : simpleMatch) (data : List UInt8) :
    m.Windowed data ↔ m.Fills data :=
  ⟨simpleMatch.Windowed.fills, simpleMatch.Fills.windowed⟩

/-- The pattern "b" in the entry "ab" is reported as the bytes 1 to 2. -/
theorem a_match_is_reported_too_long : ¬ ∀ (m : simpleMatch) (data : List UInt8), m.Windowed data := by
  intro hall
  have h := (hall { expr := [98] } [97, 98]).inside (by decide)
  exact absurd h.2.2 (by decide)

/-! ## The other matcher -/

/-- `regexMatch`. `search` is `std::regex_search` with the compiled expression: the position and the
size of the match. -/
structure regexMatch where
  search : List UInt8 → Option (Nat × Nat)

/-- `match`, with the `search_function` of `regexMatch`. -/
def regexMatch.match_ (r : regexMatch) (data : List UInt8) (len : UInt32) : range :=
  let loc :=
    match r.search (data.take len.toNat) with
    | some (position, size) => (to_int position, to_int size)
    | none => NULLRANGE
  if loc = NULLRANGE then NULLRANGE else (loc.1, loc.1 + loc.2 - 1)

-- the length is the one of the match, so that "b" in "ab" is the byte 1
example : ({ search := fun str => (find [98] str).map fun i => (i, 1) } : regexMatch).match_ [97, 98] 2
    = (1, 1) := by
  decide

end socle.flows
