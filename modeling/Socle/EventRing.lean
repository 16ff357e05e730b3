-- The events of the log (logger.hpp): a ring of the last events, and the details
-- that are given for them. A thread may hold one id for several events. What is
-- taken out of the ring takes the details of its id along.
import Mathlib.Data.List.AList
import Mathlib.Data.List.DropRight
import Mathlib.Logic.Function.Basic
import Socle.Lib.Run

namespace socle

open lib.run

/-! ## Data -/

/-- `Events`. An event is its id and its text. `current_event_id_` is the id that a thread holds,
0 when it holds none. -/
structure Events (Θ : Type) where
  event_count_ : UInt64 := 100
  current_event_id_ : Θ → UInt64 := fun _ => 0
  event_detail_db_ : AList fun _ : UInt64 => String := ∅
  events_ : List (UInt64 × String) := []

namespace Events

variable {Θ : Type} {events_max_ : Nat}

/-! ## Operations -/

def clear (e : Events Θ) : Events Θ :=
  { e with events_ := [], event_detail_db_ := ∅ }

def lock_event_id [DecidableEq Θ] (e : Events Θ) (th : Θ) : UInt64 × Events Θ :=
  if e.current_event_id_ th > 0 then (e.current_event_id_ th, e)
  else
    (e.event_count_ + 1,
      { e with
        event_count_ := e.event_count_ + 1
        current_event_id_ := Function.update e.current_event_id_ th (e.event_count_ + 1) })

def release_event_id [DecidableEq Θ] (e : Events Θ) (th : Θ) : Events Θ :=
  { e with current_event_id_ := Function.update e.current_event_id_ th 0 }

/-- The id that an event of the thread gets. -/
def use_eid (e : Events Θ) (th : Θ) : UInt64 :=
  if e.current_event_id_ th > 0 then e.current_event_id_ th else e.event_count_ + 1

/-- `emplace_back` of an event, which may count up first. -/
def emplace_back (e : Events Θ) (th : Θ) (text : String) : Events Θ :=
  { e with
    event_count_ := if e.current_event_id_ th > 0 then e.event_count_ else e.event_count_ + 1
    events_ := e.events_ ++ [(e.use_eid th, text)] }

/-- A ring that is too long loses its front, and the details of the id in front. -/
def pop_excess (events_max_ : Nat) (e : Events Θ) : Events Θ :=
  match e.events_ with
  | [] => e
  | (eid, _) :: rest =>
    if e.events_.length > events_max_ then
      { e with events_ := rest, event_detail_db_ := e.event_detail_db_.erase eid }
    else e

/-- `insert`: the id of the event. The text comes with its time and level. -/
def insert (events_max_ : Nat) (e : Events Θ) (th : Θ) (text : String) : UInt64 × Events Θ :=
  (e.use_eid th, (e.emplace_back th text).pop_excess events_max_)

/-- `detail`. An `emplace` leaves what is there. -/
def detail (e : Events Θ) (eid : UInt64) (text : String) : UInt64 × Events Θ :=
  (eid, if eid ∈ e.event_detail_db_ then e
    else { e with event_detail_db_ := e.event_detail_db_.insert eid text })

/-- The ids of the events in the ring. -/
def ids (e : Events Θ) : List UInt64 :=
  e.events_.map Prod.fst

/-! ## Runs -/

inductive Call (Θ : Type)
  | insert (th : Θ) (text : String)
  | detail (eid : UInt64) (text : String)
  | lock_event_id (th : Θ)
  | release_event_id (th : Θ)
  | clear

/-- The events, and what their users know: the events inserted since the last `clear`, and the
details given for an id that was in the ring then and has been since. -/
structure Usage (Θ : Type) where
  events : Events Θ := {}
  inserted : List (UInt64 × String) := []
  given : List (UInt64 × String) := []

/-- The details of the ids that are in the ring. -/
def still (e : Events Θ) (given : List (UInt64 × String)) : List (UInt64 × String) :=
  given.filter fun d => d.1 ∈ e.ids

def call [DecidableEq Θ] (events_max_ : Nat) (u : Usage Θ) : Call Θ → Usage Θ
  | .insert th text =>
    let e := (u.events.insert events_max_ th text).2
    { events := e
      inserted := u.inserted ++ [((u.events.insert events_max_ th text).1, text)]
      given := still e u.given }
  | .detail eid text =>
    { u with
      events := (u.events.detail eid text).2
      given := if eid ∈ u.events.ids then (eid, text) :: u.given else u.given }
  | .lock_event_id th => { u with events := (u.events.lock_event_id th).2 }
  | .release_event_id th => { u with events := u.events.release_event_id th }
  | .clear => { events := u.events.clear }

def step [DecidableEq Θ] (events_max_ : Nat) (u : Usage Θ) (c : Call Θ) : Option (Usage Θ) :=
  some (call events_max_ u c)

/-- What the ring and the details are to be. -/
structure InOrder (events_max_ : Nat) (u : Usage Θ) : Prop where
  last : u.events.events_ = u.inserted.rtake events_max_
  owned : ∀ eid ∈ u.events.event_detail_db_, eid ∈ u.events.ids
  available : ∀ d ∈ u.given, d.1 ∈ u.events.ids →
    u.events.event_detail_db_.lookup d.1 = some d.2
  ring_bounded : u.events.events_.length ≤ events_max_
  details_bounded : u.events.event_detail_db_.entries.length ≤ events_max_

/-- When a call keeps the order. An event that is evicted has no details, or no other event in the
ring has its id. And a detail comes for an id in the ring that has no other detail. -/
def Fits (events_max_ : Nat) (u : Usage Θ) : Call Θ → Prop
  | .insert th text =>
    match u.events.events_ ++ [(u.events.use_eid th, text)] with
    | [] => True
    | (eid, _) :: rest =>
      events_max_ ≤ rest.length → eid ∈ rest.map Prod.fst → eid ∉ u.events.event_detail_db_
  | .detail eid text =>
    eid ∈ u.events.ids ∧ ∀ t ∈ u.events.event_detail_db_.lookup eid, t = text
  | _ => True

/-! ## The ring -/

/-- The last `n` of a list that got longer. -/
theorem rtake_concat {α : Type} (n : Nat) (l : List α) (x : α) :
    (l ++ [x]).rtake n =
      if l.length < n then l.rtake n ++ [x] else (l.rtake n ++ [x]).drop 1 := by
  unfold List.rtake
  have hlen : (l ++ [x]).length = l.length + 1 := by simp
  rw [hlen]
  split
  next h =>
    have h1 : l.length + 1 - n = 0 := by omega
    have h2 : l.length - n = 0 := by omega
    rw [h1, h2, List.drop_zero, List.drop_zero]
  next h =>
    have h1 : l.length + 1 - n = (l.length - n) + 1 := by omega
    have h2 : l.drop (l.length - n) ++ [x] = (l ++ [x]).drop (l.length - n) := by
      rw [List.drop_append_of_le_length (by omega)]
    rw [h1, h2, List.drop_drop]

theorem length_rtake {α : Type} (n : Nat) (l : List α) : (l.rtake n).length = min n l.length := by
  unfold List.rtake
  rw [List.length_drop]
  omega

/-- What an insertion does. Either the ring has room, or its front goes with the details. -/
theorem insert_cases (events_max_ : Nat) (e : Events Θ) (th : Θ) (text : String) :
    ∃ eid front rest, e.events_ ++ [(e.use_eid th, text)] = (eid, front) :: rest ∧
      ((rest.length < events_max_ ∧
          (e.insert events_max_ th text).2.events_ = (eid, front) :: rest ∧
          (e.insert events_max_ th text).2.event_detail_db_ = e.event_detail_db_) ∨
        (events_max_ ≤ rest.length ∧ (e.insert events_max_ th text).2.events_ = rest ∧
          (e.insert events_max_ th text).2.event_detail_db_ = e.event_detail_db_.erase eid)) := by
  obtain ⟨⟨eid, front⟩, rest, hring⟩ : ∃ p rest, e.events_ ++ [(e.use_eid th, text)] = p :: rest :=
    List.exists_cons_of_ne_nil (by simp)
  refine ⟨eid, front, rest, hring, ?_⟩
  have hevents : (e.emplace_back th text).events_ = (eid, front) :: rest := hring
  unfold insert pop_excess
  simp only [hevents]
  by_cases h : events_max_ ≤ rest.length
  · right
    have hlong : ((eid, front) :: rest).length > events_max_ := by
      rw [List.length_cons]
      omega
    rw [if_pos hlong]
    exact ⟨h, rfl, rfl⟩
  · left
    have hroom : ¬ ((eid, front) :: rest).length > events_max_ := by
      rw [List.length_cons]
      omega
    rw [if_neg hroom]
    exact ⟨by omega, hevents, rfl⟩

theorem insert_events (e : Events Θ) (th : Θ) (text : String) (l : List (UInt64 × String))
    (h : e.events_ = l.rtake events_max_) :
    (e.insert events_max_ th text).2.events_ = (l ++ [(e.use_eid th, text)]).rtake events_max_ := by
  obtain ⟨eid, front, rest, hring, hcase⟩ := insert_cases events_max_ e th text
  have hlen : e.events_.length = rest.length := by
    have := congrArg List.length hring
    simpa using this
  rw [h, length_rtake] at hlen
  rw [rtake_concat, ← h, hring]
  rcases hcase with ⟨hroom, hevents, -⟩ | ⟨hfull, hevents, -⟩
  · rw [hevents, if_pos (by omega)]
  · rw [hevents, if_neg (by omega)]
    rfl

/-! ## The details -/

/-- What the calls keep that fit: the store is what was given, and each id in it is in the ring. -/
structure Kept (events_max_ : Nat) (u : Usage Θ) : Prop where
  last : u.events.events_ = u.inserted.rtake events_max_
  owned : ∀ eid ∈ u.events.event_detail_db_, eid ∈ u.events.ids
  given : ∀ d, d ∈ u.given ↔ u.events.event_detail_db_.lookup d.1 = some d.2

theorem Kept.ring_bounded {u : Usage Θ} (h : Kept events_max_ u) :
    u.events.events_.length ≤ events_max_ := by
  rw [h.last, length_rtake]
  omega

/-- The ids of the store are different, and each one is that of an event. -/
theorem details_le_events {e : Events Θ} (h : ∀ eid ∈ e.event_detail_db_, eid ∈ e.ids) :
    e.event_detail_db_.entries.length ≤ e.events_.length := by
  have hsub : e.event_detail_db_.keys ⊆ e.ids := fun eid hid => h eid (AList.mem_keys.mpr hid)
  have hle := (List.subperm_of_subset e.event_detail_db_.keys_nodup hsub).length_le
  unfold AList.keys List.keys ids at hle
  rwa [List.length_map, List.length_map] at hle

theorem Kept.inOrder {u : Usage Θ} (h : Kept events_max_ u) : InOrder events_max_ u where
  last := h.last
  owned := h.owned
  available := fun d hd _ => (h.given d).mp hd
  ring_bounded := h.ring_bounded
  details_bounded := (details_le_events h.owned).trans h.ring_bounded

theorem kept_start : Kept events_max_ ({} : Usage Θ) where
  last := by simp
  owned := fun eid hid => absurd hid (AList.notMem_empty eid)
  given := by simp

/-! ## One call -/

theorem fits_insert {u : Usage Θ} {th : Θ} {text front : String} {eid : UInt64}
    {rest : List (UInt64 × String)}
    (hring : u.events.events_ ++ [(u.events.use_eid th, text)] = (eid, front) :: rest) :
    Fits events_max_ u (.insert th text) ↔ (events_max_ ≤ rest.length →
      eid ∈ rest.map Prod.fst → eid ∉ u.events.event_detail_db_) := by
  unfold Fits
  simp only [hring]

section
variable [DecidableEq Θ] {u : Usage Θ}

theorem kept_insert {th : Θ} {text : String} (h : Kept events_max_ u)
    (hfit : Fits events_max_ u (.insert th text)) :
    Kept events_max_ (call events_max_ u (.insert th text)) := by
  have hlast := insert_events u.events th text u.inserted h.last
  obtain ⟨eid, front, rest, hring, hcase⟩ := insert_cases events_max_ u.events th text
  -- An id of the old ring is the front's, or it is behind the front.
  have hold : ∀ i ∈ u.events.ids, i = eid ∨ i ∈ rest.map Prod.fst := by
    intro i hi
    have hin : i ∈ ((eid, front) :: rest).map Prod.fst := by
      rw [← hring, List.map_append]
      exact List.mem_append_left _ hi
    rwa [List.map_cons, List.mem_cons] at hin
  rcases hcase with ⟨-, hevents, hdb⟩ | ⟨hfull, hevents, hdb⟩
  · have hids : ∀ i, i ∈ u.events.ids → i ∈ (u.events.insert events_max_ th text).2.ids := by
      intro i hi
      unfold ids
      rw [hevents, List.map_cons, List.mem_cons]
      exact hold i hi
    refine ⟨hlast, ?_, ?_⟩
    · intro i hi
      apply hids
      apply h.owned
      rwa [← hdb]
    · intro d
      show d ∈ still _ u.given ↔ (u.events.insert events_max_ th text).2.event_detail_db_.lookup d.1 = _
      rw [hdb, still, List.mem_filter, h.given]
      constructor
      · exact And.left
      · intro hd
        refine ⟨hd, ?_⟩
        have hmem : d.1 ∈ u.events.event_detail_db_ := by
          rw [← AList.lookup_isSome, hd, Option.isSome_some]
        simpa using hids d.1 (h.owned d.1 hmem)
  · have hids : (u.events.insert events_max_ th text).2.ids = rest.map Prod.fst := by
      rw [ids, hevents]
    have hfit' : eid ∈ rest.map Prod.fst → eid ∉ u.events.event_detail_db_ :=
      (fits_insert hring).mp hfit hfull
    refine ⟨hlast, ?_, ?_⟩
    · intro i hi
      have hmem : i ≠ eid ∧ i ∈ u.events.event_detail_db_ := by
        have hi' : i ∈ u.events.event_detail_db_.erase eid := by rwa [← hdb]
        rwa [AList.mem_erase] at hi'
      show i ∈ (u.events.insert events_max_ th text).2.ids
      rw [hids]
      exact (hold i (h.owned i hmem.2)).resolve_left hmem.1
    · intro d
      show d ∈ still _ u.given ↔ (u.events.insert events_max_ th text).2.event_detail_db_.lookup d.1 = _
      rw [hdb, still, List.mem_filter, h.given, hids]
      by_cases hd : d.1 = eid
      · rw [hd, AList.lookup_erase]
        constructor
        · rintro ⟨hsome, hin⟩
          have hmem : eid ∈ u.events.event_detail_db_ := by
            rw [← AList.lookup_isSome, hsome, Option.isSome_some]
          exact absurd hmem (hfit' (by simpa using hin))
        · intro hnone
          exact absurd hnone (by simp)
      · rw [AList.lookup_erase_ne hd]
        constructor
        · exact And.left
        · intro hsome
          have hmem : d.1 ∈ u.events.event_detail_db_ := by
            rw [← AList.lookup_isSome, hsome, Option.isSome_some]
          have hin := (hold d.1 (h.owned d.1 hmem)).resolve_left hd
          exact ⟨hsome, by simpa using hin⟩

theorem kept_detail {eid : UInt64} {text : String} (h : Kept events_max_ u)
    (hfit : Fits events_max_ u (.detail eid text)) :
    Kept events_max_ (call events_max_ u (.detail eid text)) := by
  obtain ⟨hin, hsame⟩ := hfit
  unfold call
  simp only [detail, if_pos hin]
  by_cases hdb : eid ∈ u.events.event_detail_db_
  · -- The same detail again.
    rw [if_pos hdb]
    obtain ⟨t, ht⟩ := Option.isSome_iff_exists.mp (AList.lookup_isSome.mpr hdb)
    obtain rfl := hsame t ht
    refine ⟨h.last, h.owned, fun d => ?_⟩
    rw [List.mem_cons, h.given]
    constructor
    · rintro (rfl | hd)
      · exact ht
      · exact hd
    · exact Or.inr
  · rw [if_neg hdb]
    refine ⟨h.last, ?_, fun d => ?_⟩
    · intro i hi
      rcases (AList.mem_insert _).mp hi with rfl | hi
      · exact hin
      · exact h.owned i hi
    · rw [List.mem_cons, h.given]
      show _ ↔ (u.events.event_detail_db_.insert eid text).lookup d.1 = some d.2
      by_cases hd : d.1 = eid
      · rw [hd, AList.lookup_insert, AList.lookup_eq_none.mpr hdb]
        constructor
        · rintro (rfl | hnone)
          · rfl
          · exact absurd hnone (by simp)
        · intro hsome
          left
          rw [Prod.ext_iff]
          exact ⟨hd, (Option.some.inj hsome).symm⟩
      · rw [AList.lookup_insert_ne hd]
        constructor
        · rintro (rfl | hsome)
          · exact absurd rfl hd
          · exact hsome
        · exact Or.inr

theorem kept_clear : Kept events_max_ (call events_max_ u .clear) where
  last := by simp [call, clear]
  owned := fun eid hid => absurd hid (AList.notMem_empty eid)
  given := by simp [call, clear]

theorem kept_lock {th : Θ} (h : Kept events_max_ u) :
    Kept events_max_ (call events_max_ u (.lock_event_id th)) := by
  show Kept events_max_ { u with events := (u.events.lock_event_id th).2 }
  unfold lock_event_id
  split
  · exact h
  · exact ⟨h.last, h.owned, h.given⟩

theorem kept_call {c : Call Θ} (h : Kept events_max_ u) (hfit : Fits events_max_ u c) :
    Kept events_max_ (call events_max_ u c) := by
  cases c with
  | insert th text => exact kept_insert h hfit
  | detail eid text => exact kept_detail h hfit
  | lock_event_id th => exact kept_lock h
  | release_event_id th => exact ⟨h.last, h.owned, h.given⟩
  | clear => exact kept_clear

/-- A call that does not fit loses a detail, or leaves one that nobody owns. -/
theorem not_inOrder_call {c : Call Θ} (h : Kept events_max_ u) (hfit : ¬ Fits events_max_ u c) :
    ¬ InOrder events_max_ (call events_max_ u c) := by
  intro hgood
  cases c with
  | insert th text =>
    obtain ⟨eid, front, rest, hring, hcase⟩ := insert_cases events_max_ u.events th text
    rw [fits_insert hring] at hfit
    push Not at hfit
    obtain ⟨hfull, hin, hdb⟩ := hfit
    rcases hcase with ⟨hroom, -, -⟩ | ⟨-, hevents, herase⟩
    · omega
    · have hids : (u.events.insert events_max_ th text).2.ids = rest.map Prod.fst := by
        rw [ids, hevents]
      obtain ⟨t, ht⟩ := Option.isSome_iff_exists.mp (AList.lookup_isSome.mpr hdb)
      have hgiven : (eid, t) ∈ still (u.events.insert events_max_ th text).2 u.given := by
        rw [still, List.mem_filter, h.given, hids]
        exact ⟨ht, by simpa using hin⟩
      have hgone := hgood.available (eid, t) hgiven (by
        show eid ∈ (u.events.insert events_max_ th text).2.ids
        rwa [hids])
      have hnone : (u.events.insert events_max_ th text).2.event_detail_db_.lookup eid = none := by
        rw [herase, AList.lookup_erase]
      exact absurd (hgone.symm.trans hnone) (by simp)
  | detail eid text =>
    by_cases hin : eid ∈ u.events.ids
    · unfold Fits at hfit
      push Not at hfit
      obtain ⟨t, ht, hne⟩ := hfit hin
      have hdb : eid ∈ u.events.event_detail_db_ := by
        rw [← AList.lookup_isSome, Option.mem_def.mp ht, Option.isSome_some]
      unfold call at hgood
      simp only [detail, if_pos hin, if_pos hdb] at hgood
      have hlook := hgood.available (eid, text) List.mem_cons_self hin
      exact hne (Option.some.inj (ht.symm.trans hlook))
    · have hdb : eid ∉ u.events.event_detail_db_ := fun hm => hin (h.owned eid hm)
      unfold call at hgood
      simp only [detail, if_neg hdb] at hgood
      exact hin (hgood.owned eid ((AList.mem_insert _).mpr (Or.inl rfl)))
  | lock_event_id th => exact hfit trivial
  | release_event_id th => exact hfit trivial
  | clear => exact hfit trivial

/-- The ring and the details are in order in each state of a run when, and only when, each call of
the run fits. -/
theorem events_inOrder_iff (calls : List (Call Θ)) :
    Always (step events_max_) (InOrder events_max_) {} calls ↔
      Meets (step events_max_) (Fits events_max_) {} calls := by
  refine always_iff_meets (P := Kept events_max_) (fun _ => Kept.inOrder) ?_ ?_ kept_start calls
  · intro u c u' hu hc hstep
    cases hstep
    exact kept_call hu hc
  · intro u c u' hu hc hstep
    cases hstep
    exact not_inOrder_call hu hc

/-! ## Two events of one id -/

/-- A thread holds an id and inserts `k + 1` events. A detail was given behind the first one. -/
def block (th : Θ) (k : Nat) : Usage Θ :=
  let ring := (101, "first") :: List.replicate k (101, "more")
  let e : Events Θ := {
    event_count_ := 101
    current_event_id_ := Function.update (fun _ => 0) th 101
    event_detail_db_ := AList.insert 101 "details" ∅
    events_ := ring }
  { events := e, inserted := ring, given := [(101, "details")] }

theorem block_ring (th : Θ) (k : Nat) :
    (block th k).events.events_ ++ [((block th k).events.use_eid th, "more")] =
      (101, "first") :: List.replicate (k + 1) (101, "more") := by
  have heid : (block th k).events.use_eid th = 101 := by simp [block, use_eid]
  rw [heid, List.replicate_succ']
  rfl

theorem kept_block (th : Θ) {k : Nat} (hk : k < events_max_) : Kept events_max_ (block th k) where
  last := by
    have hlen : (block th k).inserted.length - events_max_ = 0 := by
      simp only [block, List.length_cons, List.length_replicate]
      omega
    rw [List.rtake, hlen]
    rfl
  owned := by
    intro eid hid
    rcases (AList.mem_insert _).mp hid with rfl | hnone
    · simp [block, ids]
    · exact absurd hnone (AList.notMem_empty eid)
  given := by
    rintro ⟨eid, text⟩
    show (eid, text) ∈ [((101 : UInt64), "details")] ↔
      (AList.insert 101 "details" ∅ : AList fun _ : UInt64 => String).lookup eid = some text
    by_cases hid : eid = 101
    · rw [hid, AList.lookup_insert]
      simp [eq_comm]
    · rw [AList.lookup_insert_ne hid]
      simp [hid]

theorem call_block (th : Θ) {k : Nat} (hk : k + 1 < events_max_) :
    call events_max_ (block th k) (.insert th "more") = block th (k + 1) := by
  have hring := block_ring th k
  have hlen : ¬ ((101, "first") :: List.replicate (k + 1) ((101 : UInt64), "more")).length >
      events_max_ := by
    simp only [List.length_cons, List.length_replicate]
    omega
  have heid : (block th k).events.use_eid th = 101 := by simp [block, use_eid]
  have hevents : ((block th k).events.emplace_back th "more").events_ =
      (101, "first") :: List.replicate (k + 1) (101, "more") := hring
  have hcount : ((block th k).events.emplace_back th "more").event_count_ = 101 := by
    simp [block, emplace_back]
  have hinsert : ((block th k).events.insert events_max_ th "more").2 =
      (block th k).events.emplace_back th "more" := by
    unfold insert pop_excess
    simp only [hevents, if_neg hlen]
  have hblock : (block th k).events.emplace_back th "more" = (block th (k + 1)).events := by
    unfold emplace_back at hevents hcount ⊢
    rw [Events.mk.injEq]
    exact ⟨hcount, rfl, rfl, hevents⟩
  unfold call
  simp only [hinsert, hblock]
  rw [block]
  congr 1

/-- In a ring of any size, the details of an id are lost while another event of it is there. -/
theorem not_always_block (th : Θ) {k : Nat} (n : Nat) (hn : k + n + 1 = events_max_) :
    ¬ Always (step events_max_) (InOrder events_max_) (block th k)
      (List.replicate (n + 1) (.insert th "more")) := by
  intro h
  have hnext := h.2 _ rfl
  induction n generalizing k with
  | zero =>
    refine not_inOrder_call (kept_block th (by omega)) ?_ (always_here hnext)
    rw [fits_insert (block_ring th k), List.length_replicate]
    intro hfit
    refine hfit (by omega) ?_ ?_
    · simp
    · exact (AList.mem_insert _).mpr (Or.inl rfl)
  | succ n ih =>
    rw [call_block th (by omega)] at hnext
    exact ih (by omega) hnext (hnext.2 _ rfl)

end

/-- The details of an event are lost though a second event of its id is in the ring. -/
theorem events_not_inOrder : ¬ ∀ calls : List (Call Unit),
    Always (step 1000) (InOrder 1000) {} calls := by
  intro h
  have hrun := h ([.lock_event_id (), .insert () "first", .detail 101 "details"] ++
    List.replicate 1000 (.insert () "more"))
  have hblock := ((hrun.2 _ rfl).2 _ rfl).2 _ rfl
  exact not_always_block () 999 rfl hblock

end Events

end socle
