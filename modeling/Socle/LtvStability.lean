-- Packing twice, and the search for a path (common/ltventry.cpp). `pack` leaves
-- its lengths and its buffer in the entries, from which the next `pack` starts;
-- `search` looks for each element of the path below the same entry.
import Socle.LtvRoundTrip

namespace socle.ltv

open lib.bytes

/-! ## Search -/

namespace LTVEntry

/-- The first sub-entry with the id. -/
def hit (e : LTVEntry) (path_element : Int) : Option Nat :=
  e.contains_.findIdx? fun ltve => (ltve.id_.toNat : Int) = path_element

/-- The loop of `search`, with the place of `current`. -/
def search_from (e : LTVEntry) : List Nat → List Int → Option (List Nat)
  | current, [] => some current
  | _, path_element :: rest =>
    match e.hit path_element with
    | some i => search_from e [i] rest
    | none => none

/-- `search`. An entry is given by its place: which sub-entry, and which one of that, and so on. -/
def search (e : LTVEntry) (path : List Int) : Option (List Nat) :=
  e.search_from [] path

/-- One level down for each element of the path. -/
def descend : List Int → LTVEntry → Option (List Nat)
  | [], _ => some []
  | path_element :: rest, e =>
    match e.hit path_element with
    | none => none
    | some i => (e.contains_[i]?.bind fun ltve => descend rest ltve).map fun place => i :: place

end LTVEntry

/-! ## The law -/

mutual

/-- How many bytes of a packet the entry makes. -/
def mass : LTVEntry → Nat
  | ⟨contains, len, _, type, _, _⟩ => if type = typ.cont then len + mass_all contains else len

def mass_all : List LTVEntry → Nat
  | [] => 0
  | c :: rest => mass c + mass_all rest

end

mutual

/-- The bytes of each entry are in its block, and the length of a container is in its bytes. -/
def Formed : LTVEntry → Prop
  | ⟨contains, len, _, type, data, _⟩ => len < 2 ^ 32 ∧ (data = none → len = 0) ∧
    (∀ p ∈ data, p.off + len ≤ p.size) ∧ (type = typ.cont → 4 ≤ len ∧ Formed_all contains)

def Formed_all : List LTVEntry → Prop
  | [] => True
  | c :: rest => Formed c ∧ Formed_all rest

end

mutual

/-- Each length in the second tree is what the entry makes in the first one. -/
def Sized : LTVEntry → LTVEntry → Prop
  | ⟨contains, len, id, type, data, owner⟩, e' =>
    e'.len_ = mass ⟨contains, len, id, type, data, owner⟩ ∧
      (type = typ.cont → Sized_all contains e'.contains_)

def Sized_all : List LTVEntry → List LTVEntry → Prop
  | [], [] => True
  | c :: rest, c' :: rest' => Sized c c' ∧ Sized_all rest rest'
  | _, _ => False

end

/-- A tree is packed, and packed again: no byte outside of an entry is touched, the bytes are the same,
and each length is right both times. -/
def Stable (e : LTVEntry) : Prop :=
  Formed e ∧ ∀ fresh fresh', ∃ first n second m, e.pack fresh = some (first, n) ∧ Formed first ∧
    first.pack fresh' = some (second, m) ∧ second.buffer = first.buffer ∧ Sized e first ∧
    Sized e second

/-! ## The condition -/

/-- The tree is an empty scalar, or a container below which there are no bytes. -/
def Inert (e : LTVEntry) : Prop :=
  Formed e ∧ (e.type_ = typ.cont ∧ mass_all e.contains_ = 0 ∨ e.type_ ≠ typ.cont ∧ e.len_ = 0)

/-- The path has one element at most, or it leads to nothing, and one of its elements is not below the
root. -/
def Shallow (e : LTVEntry) (path : List Int) : Prop :=
  path.length ≤ 1 ∨ e.descend path = none ∧
    ∃ id ∈ path, ∀ ltve ∈ e.contains_, (ltve.id_.toNat : Int) ≠ id

/-! ## Sub-entries without bytes -/

theorem mass_cont {e : LTVEntry} (h : e.type_ = typ.cont) :
    mass e = e.len_ + mass_all e.contains_ := by
  obtain ⟨contains, len, id, type, data, owner⟩ := e
  exact if_pos h

theorem mass_scalar {e : LTVEntry} (h : e.type_ ≠ typ.cont) : mass e = e.len_ := by
  obtain ⟨contains, len, id, type, data, owner⟩ := e
  exact if_neg h

theorem Formed.len_lt {e : LTVEntry} (h : Formed e) : e.len_ < 2 ^ 32 := by
  obtain ⟨contains, len, id, type, data, owner⟩ := e
  exact h.1

theorem Formed.header {e : LTVEntry} (h : Formed e) (hcont : e.type_ = typ.cont) :
    4 ≤ e.len_ ∧ Formed_all e.contains_ := by
  obtain ⟨contains, len, id, type, data, owner⟩ := e
  exact h.2.2.2 hcont

/-- An entry that makes no bytes is an empty scalar. -/
theorem scalar_of_no_mass {e : LTVEntry} (h : Formed e) (hmass : mass e = 0) :
    e.type_ ≠ typ.cont ∧ e.len_ = 0 := by
  by_cases hcont : e.type_ = typ.cont
  · have hheader := (h.header hcont).1
    rw [mass_cont hcont] at hmass
    omega
  · rw [mass_scalar hcont] at hmass
    exact ⟨hcont, hmass⟩

theorem pack_into_empty {e : LTVEntry} (h : e.type_ ≠ typ.cont) (hlen : e.len_ = 0)
    (b : List UInt8) : pack_into e b = (e, b, 0) := by
  obtain ⟨contains, len, id, type, data, owner⟩ := e
  have hlen : len = 0 := hlen
  subst hlen
  rw [pack_into, if_neg h]
  rfl

theorem sized_empty {e : LTVEntry} (h : e.type_ ≠ typ.cont) (hlen : e.len_ = 0) : Sized e e := by
  have hmass := mass_scalar h
  obtain ⟨contains, len, id, type, data, owner⟩ := e
  exact ⟨hmass.symm, fun hcont => absurd hcont h⟩

/-- Nothing is put, and nothing changes. -/
theorem pack_all_empty {cs : List LTVEntry} (h : Formed_all cs) (hmass : mass_all cs = 0)
    (b : List UInt8) : pack_all cs b = (cs, b, 0) ∧ Sized_all cs cs := by
  induction cs with
  | nil => exact ⟨rfl, trivial⟩
  | cons c rest ih =>
    obtain ⟨hc, hrest⟩ := h
    have hsum : mass c + mass_all rest = 0 := hmass
    obtain ⟨htype, hlen⟩ := scalar_of_no_mass hc (by omega)
    obtain ⟨hpack, hsized⟩ := ih hrest (by omega)
    refine ⟨?_, sized_empty htype hlen, hsized⟩
    rw [pack_all_cons, pack_into_empty htype hlen]
    simp only [hpack, Nat.zero_add]

/-! ## A tree without bytes below its root -/

theorem set_length_length {b : List UInt8} (h : 4 ≤ b.length) (len : Nat) :
    (set_length b 0 len).length = b.length := by
  unfold set_length
  simp only [List.take_zero, List.nil_append, List.length_append, u32_length, List.length_drop]
  omega

theorem set_length_again (b : List UInt8) (len : Nat) :
    set_length (set_length b 0 len) 0 len = set_length b 0 len := by
  unfold set_length
  simp only [List.take_zero, List.nil_append, Nat.zero_add]
  rw [List.drop_left' (u32_length len)]

theorem Formed.buffer_length {e : LTVEntry} (h : Formed e) : e.buffer.length = e.len_ := by
  obtain ⟨contains, len, id, type, data, owner⟩ := e
  cases data with
  | none => exact (h.2.1 rfl).symm
  | some p => exact slice_length len

/-- The root after `pack`, when nothing is put behind its bytes. -/
def packed_root (fresh : Nat → UInt8) (e : LTVEntry) : LTVEntry :=
  { e with
    data_ := some ((new_array fresh e.len_).write (set_length e.buffer 0 e.len_))
    owner_ := true }

section
variable {fresh : Nat → UInt8} {e : LTVEntry}

theorem packed_root_buffer (h : Formed e) (hcont : e.type_ = typ.cont) :
    (packed_root fresh e).buffer = set_length e.buffer 0 e.len_ := by
  have hlength : (set_length e.buffer 0 e.len_).length = e.len_ := by
    rw [set_length_length (by rw [h.buffer_length]; exact (h.header hcont).1), h.buffer_length]
  exact slice_of_holds (holds_put _ _ _) hlength.symm

theorem packed_root_formed (h : Formed e) : Formed (packed_root fresh e) := by
  have hlen := h.len_lt
  have hheader := h.header
  obtain ⟨contains, len, id, type, data, owner⟩ := e
  refine ⟨hlen, ?_, ?_, hheader⟩
  · intro hnone
    cases hnone
  · intro p hp
    cases hp
    exact Nat.le_of_eq (Nat.zero_add _)

theorem pack_inert (h : Formed e) (hcont : e.type_ = typ.cont)
    (hmass : mass_all e.contains_ = 0) :
    e.pack fresh = some (packed_root fresh e, e.len_) := by
  have hpack := (pack_all_empty (h.header hcont).2 hmass e.buffer).1
  have hlen : (e.len_ + 0) % 2 ^ 32 = e.len_ := Nat.mod_eq_of_lt h.len_lt
  have hlength : (set_length e.buffer 0 e.len_).length = e.len_ := by
    rw [set_length_length (by rw [h.buffer_length]; exact (h.header hcont).1), h.buffer_length]
  unfold LTVEntry.pack
  rw [if_pos hcont, hpack]
  simp only [hlen, hlength]
  rfl

/-- The lengths of a tree that was not changed. -/
theorem sized_inert (h : Formed e) (hcont : e.type_ = typ.cont) (hmass : mass_all e.contains_ = 0)
    {e' : LTVEntry} (hlen : e'.len_ = e.len_) (hcontains : e'.contains_ = e.contains_) :
    Sized e e' := by
  have hsized := (pack_all_empty (h.header hcont).2 hmass []).2
  have hall := mass_cont hcont
  obtain ⟨contains, len, id, type, data, owner⟩ := e
  refine ⟨?_, fun _ => ?_⟩
  · rw [hall, hmass, hlen]
    rfl
  · rw [hcontains]
    exact hsized

theorem Inert.stable (h : Inert e) : Stable e := by
  obtain ⟨hformed, ⟨hcont, hmass⟩ | ⟨htype, hlen⟩⟩ := h
  · refine ⟨hformed, fun fresh fresh' => ?_⟩
    have hroot : Formed (packed_root fresh e) := packed_root_formed hformed
    refine ⟨packed_root fresh e, e.len_, packed_root fresh' (packed_root fresh e), e.len_,
      pack_inert hformed hcont hmass, hroot, pack_inert hroot hcont hmass, ?_,
      sized_inert hformed hcont hmass rfl rfl, sized_inert hformed hcont hmass rfl rfl⟩
    rw [packed_root_buffer hroot hcont, packed_root_buffer hformed hcont]
    exact set_length_again _ _
  · have hpack (fresh : Nat → UInt8) : e.pack fresh = some (e, 0) := by
      simp [LTVEntry.pack, htype, hlen]
    exact ⟨hformed, fun fresh fresh' => ⟨e, 0, e, 0, hpack fresh, hformed, hpack fresh', rfl,
      sized_empty htype hlen, sized_empty htype hlen⟩⟩

/-! ## A tree with bytes below its root -/

theorem Sized.len {e' : LTVEntry} (h : Sized e e') : e'.len_ = mass e := by
  obtain ⟨contains, len, id, type, data, owner⟩ := e
  exact h.1

theorem Sized.subs {e' : LTVEntry} (h : Sized e e') (hcont : e.type_ = typ.cont) :
    Sized_all e.contains_ e'.contains_ := by
  obtain ⟨contains, len, id, type, data, owner⟩ := e
  exact h.2 hcont

/-- What an entry returns is its length. -/
theorem pack_into_returns (e : LTVEntry) (b : List UInt8) :
    (pack_into e b).2.2 = (pack_into e b).1.len_ := by
  obtain ⟨contains, len, id, type, data, owner⟩ := e
  unfold pack_into
  simp only
  split
  · rfl
  · split
    · rfl
    · simp only
      omega

theorem pack_all_returns {cs ds : List LTVEntry} {b : List UInt8}
    (h : Sized_all cs (pack_all ds b).1) : (pack_all ds b).2.2 = mass_all cs := by
  induction ds generalizing cs b with
  | nil =>
    cases cs with
    | nil => rfl
    | cons c rest => exact absurd h id
  | cons d rest ih =>
    rw [pack_all_cons] at h ⊢
    cases cs with
    | nil => exact absurd h id
    | cons c cs =>
      obtain ⟨hc, hcs⟩ := h
      have hsum : mass_all (c :: cs) = mass c + mass_all cs := rfl
      rw [hsum, ih hcs, pack_into_returns, hc.len]

/-- `pack` of a container: its sub-entries, and its length. -/
theorem pack_cont {e' : LTVEntry} {n : Nat} (hcont : e.type_ = typ.cont)
    (h : e.pack fresh = some (e', n)) : e'.type_ = typ.cont ∧
      e'.contains_ = (pack_all e.contains_ e.buffer).1 ∧
      e'.len_ = (e.len_ + (pack_all e.contains_ e.buffer).2.2) % 2 ^ 32 := by
  unfold LTVEntry.pack at h
  rw [if_pos hcont] at h
  cases h
  exact ⟨hcont, rfl, rfl⟩

theorem Stable.inert (h : Stable e) : Inert e := by
  obtain ⟨hformed, hpacks⟩ := h
  obtain ⟨first, n, second, m, hfirst, -, hsecond, -, hsized, hsized'⟩ :=
    hpacks (fun _ => 0) (fun _ => 0)
  refine ⟨hformed, ?_⟩
  by_cases hcont : e.type_ = typ.cont
  · left
    refine ⟨hcont, ?_⟩
    obtain ⟨hcont', -, hlen⟩ := pack_cont hcont hfirst
    obtain ⟨-, hcontains', hlen'⟩ := pack_cont hcont' hsecond
    have hsubs := hsized'.subs hcont
    rw [hcontains'] at hsubs
    have hreturned := pack_all_returns hsubs
    have hmass := mass_cont hcont
    have hfirst_len := hsized.len
    have hsecond_len := hsized'.len
    -- the second call adds the bytes of the sub-entries to a length that has them
    rw [hreturned] at hlen'
    omega
  · right
    refine ⟨hcont, ?_⟩
    by_contra hlen
    simp only [LTVEntry.pack, if_neg hcont, if_pos (Nat.pos_of_ne_zero hlen)] at hfirst
    cases hfirst

end

/-! ## Paths -/

section
variable {e : LTVEntry} {path : List Int} {place : List Nat}

theorem hit_eq_none {id : Int} :
    e.hit id = none ↔ ∀ ltve ∈ e.contains_, (ltve.id_.toNat : Int) ≠ id := by
  simp [LTVEntry.hit]

/-- `search` fails when, and only when, an element of the path is not below the root. -/
theorem search_from_eq_none (current : List Nat) :
    e.search_from current path = none ↔ ∃ id ∈ path, e.hit id = none := by
  induction path generalizing current with
  | nil => simp [LTVEntry.search_from]
  | cons id rest ih =>
    rw [LTVEntry.search_from]
    cases hhit : e.hit id with
    | none => simp [hhit]
    | some i => simp [hhit, ih]

/-- What it finds is below the root, unless the path is empty. -/
theorem search_from_length {current : List Nat} (h : e.search_from current path = some place) :
    place.length = if path = [] then current.length else 1 := by
  induction path generalizing current with
  | nil =>
    cases h
    rfl
  | cons id rest ih =>
    rw [LTVEntry.search_from] at h
    cases hhit : e.hit id with
    | none => simp [hhit] at h
    | some i =>
      rw [hhit] at h
      rw [ih h]
      simp

/-- The entry at the end of a path is as deep as the path is long. -/
theorem descend_length (h : e.descend path = some place) : place.length = path.length := by
  induction path generalizing e place with
  | nil =>
    cases h
    rfl
  | cons id rest ih =>
    rw [LTVEntry.descend] at h
    cases hhit : e.hit id with
    | none => simp [hhit] at h
    | some i =>
      simp only [hhit, Option.map_eq_some_iff, Option.bind_eq_some_iff] at h
      obtain ⟨place, ⟨ltve, -, hplace⟩, rfl⟩ := h
      rw [List.length_cons, List.length_cons, ih hplace]

/-- One level is searched as it should be. -/
theorem search_one (id : Int) : e.search [id] = e.descend [id] := by
  simp only [LTVEntry.search, LTVEntry.search_from, LTVEntry.descend]
  cases hhit : e.hit id with
  | none => rfl
  | some i =>
    obtain ⟨hlt, -⟩ := List.findIdx?_eq_some_iff_getElem.mp hhit
    simp [List.getElem?_eq_getElem hlt]

theorem search_iff (e : LTVEntry) (path : List Int) :
    e.search path = e.descend path ↔ Shallow e path := by
  by_cases hshort : path.length ≤ 1
  · apply iff_of_true _ (Or.inl hshort)
    match path, hshort with
    | [], _ => rfl
    | [id], _ => exact search_one id
  · have hnone : (∃ id ∈ path, ∀ ltve ∈ e.contains_, (ltve.id_.toNat : Int) ≠ id) ↔
        e.search path = none := by
      simp only [← hit_eq_none]
      exact (search_from_eq_none []).symm
    unfold Shallow
    rw [hnone]
    constructor
    · intro heq
      cases hsearch : e.search path with
      | none => exact Or.inr ⟨heq ▸ hsearch, rfl⟩
      | some place =>
        -- one level, and as many as the path has
        have hdescend := descend_length (heq ▸ hsearch)
        have hfound := search_from_length hsearch
        have hne : path ≠ [] := by
          rintro rfl
          simp at hshort
        rw [if_neg hne] at hfound
        omega
    · rintro (hlength | ⟨hdescend, hsearch⟩)
      · exact absurd hlength hshort
      · rw [hdescend, hsearch]

end

/-! ## Trees -/

/-- A tree is packed twice with the same outcome when, and only when, there are no bytes below its
root; and a path is searched level by level when, and only when, it is shallow. -/
theorem trees_are_stable (e : LTVEntry) : (Stable e ↔ Inert e) ∧
    ∀ path, e.search path = e.descend path ↔ Shallow e path :=
  ⟨⟨Stable.inert, Inert.stable⟩, search_iff e⟩

/-- A container with a number in it, which is in a container itself: the second `pack` puts the bytes of
the number once more, and the path to the number leads to nothing. -/
theorem a_nested_number_is_lost :
    (¬ ∀ e, Stable e) ∧ ¬ ∀ (e : LTVEntry) (path : List Int), e.search path = e.descend path := by
  let fresh : Nat → UInt8 := fun _ => 0
  let inner := (({} : LTVEntry).container fresh 2).add (({} : LTVEntry).set_num fresh 3 3 7)
  let root := (({} : LTVEntry).container fresh 1).add inner
  constructor
  · intro hall
    obtain ⟨-, ⟨-, hmass⟩ | ⟨htype, -⟩⟩ := (hall root).inert
    · exact absurd hmass (by decide)
    · exact absurd htype (by decide)
  · intro hall
    have hpath := hall root [2, 3]
    exact absurd hpath (by decide)

end socle.ltv
