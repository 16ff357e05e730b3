-- The end of a session in the pool of datagrams (UDPCom::shutdown and
-- UDPCom::remove_datagram_entry of udpcom.cpp). The flag `reuse` of an entry asks
-- that the next removal leaves the entry and takes the flag.
import Socle.ConnectCache

namespace socle.udp.entries

open lib.run

/-! ## Data -/

/-- The pool and the `UDPCom`s. `reuse` is the flag of each entry. No function of the code keeps
`closed`, the sockets of entries that were closed. -/
structure Entries where
  com : DatagramCom := {}
  reuse : UInt32 → Bool := fun _ => false
  coms : connections.Coms := {}
  embryonics : Nat → embryon := fun _ => {}
  closed : List Int := []

namespace Entries

variable (w : Entries)

def entry (key : UInt32) : Option Record :=
  w.com.datagrams_received key

def kill_socket (left : Int) : Entries :=
  { w with coms := w.coms.kill_socket left, closed := w.closed ++ [left] }

/-- `reuse = b`, of an entry. -/
def set_reuse (key : UInt32) (b : Bool) : Entries :=
  { w with reuse := Function.update w.reuse key b }

/-- `datagrams_received.erase(key)`. -/
def erase (key : UInt32) : Entries :=
  { w with com := { w.com with
      datagrams_received := Function.update w.com.datagrams_received key none } }

/-- `in_virt_set.erase(key)`. -/
def erase_virt (key : UInt32) : Entries :=
  { w with com := { w.com with in_virt_set := DatagramCom.erase key w.com.in_virt_set } }

/-- `remove_datagram_entry`, with the number of entries that it erased. -/
def remove_datagram_entry (key : UInt32) : Nat × Entries :=
  match w.entry key with
  | none => (0, w)
  | some it =>
    let w :=
      if !w.reuse key then
        match it.socket_left with
        | some left => if left > 0 then w.kill_socket left else w
        | none => w
      else w.set_reuse key false
    (1, w.erase key)

/-- `add_first_datagrams`. A new entry is without the flag. -/
def add_first_datagrams (dist : generator) (o : origin) (red : Option (List UInt8))
    (socket_left : Option Int) : Entries :=
  let session_key := o.info.create_session_key dist true
  let com := w.com.add_first_datagrams dist o red socket_left
  match w.entry session_key with
  | some _ => { w with com }
  | none => { w.set_reuse session_key false with com }

end Entries

/-! ## Runs -/

/-- A call of `remove_datagram_entry`: its key, and the pool in front of it and behind it. -/
structure removal where
  key : UInt32
  before : Entries
  after : Entries

/-- The pool, and the removals. -/
structure state where
  pool : Entries := {}
  removals : List removal := []

/-- `remove_datagram_entry`, with its record. -/
def state.remove (key : UInt32) (st : state) : state :=
  let after := (st.pool.remove_datagram_entry key).2
  { pool := after, removals := st.removals ++ [⟨key, st.pool, after⟩] }

def state.erase_virt (key : UInt32) (st : state) : state :=
  { st with pool := st.pool.erase_virt key }

/-- The first half of `UDPCom::shutdown`. -/
def state.shutdown_fd (i : Nat) (fd : Int32) (resolved : Option String) (st : state) : state :=
  if fd > 0 then
    { st with pool := { st.pool with coms := st.pool.coms.shutdown i fd.toInt resolved } }
  else (st.erase_virt fd.toUInt32).remove fd.toUInt32

/-- `UDPCom::shutdown`, of the `UDPCom` with the number `i`. -/
def state.shutdown (i : Nat) (fd : Int32) (resolved : Option String) (st : state) : state :=
  let id := (st.pool.embryonics i).id
  let st := st.shutdown_fd i fd resolved
  if id ≠ 0 then (st.erase_virt id).remove id else st

inductive operation
  | add_first_datagrams (dist : generator) (o : origin) (red : Option (List UInt8))
    (socket_left : Option Int)
  -- a worker gives a session to a `UDPCom`
  | hand_over (i : Nat) (virtual_socket : UInt32)
  | read (i : Nat) (fd : Int32) (n : Nat) (peek real : Bool)
  | connect (i : Nat) (nonlocal_src : Option (String × UInt16)) (l3_proto : Nat)
    (host port : String) (gai_result : List connections.attempt)
  | reuse (key : UInt32) (b : Bool)
  | shutdown (i : Nat) (fd : Int32) (resolved : Option String)

/-- A read whose behaviour is undefined ends the run. -/
def step (st : state) : operation → Option state
  | .add_first_datagrams dist o red socket_left =>
    some { st with pool := st.pool.add_first_datagrams dist o red socket_left }
  | .hand_over i virtual_socket =>
    match st.pool.entry virtual_socket with
    | some _ => some { st with pool := { st.pool with
        embryonics := Function.update st.pool.embryonics i
          { st.pool.embryonics i with id := virtual_socket } } }
    | none => some st
  | .read i fd n peek real =>
    ((st.pool.embryonics i).read fd n peek real st.pool.com).map fun r =>
      { st with pool := { st.pool with
          embryonics := Function.update st.pool.embryonics i r.2.1, com := r.2.2 } }
  | .connect i nonlocal_src l3_proto host port gai_result =>
    some { st with pool := { st.pool with
        coms := (st.pool.coms.connect i nonlocal_src l3_proto host port gai_result).2 } }
  | .reuse key b =>
    match st.pool.entry key with
    | some _ => some { st with pool := st.pool.set_reuse key b }
    | none => some st
  | .shutdown i fd resolved => some (st.shutdown i fd resolved)

/-! ## The law -/

/-- The socket of an entry, when it has one. -/
def left_of (r : Record) : List Int :=
  r.socket_left.toList.filter (0 < ·)

/-- A removal keeps an entry that is in reuse, and takes the flag. It removes any other one, and
closes its socket once. All else stays. -/
structure removal.Toggles (r : removal) : Prop where
  kept : ∀ e, r.before.entry r.key = some e → r.before.reuse r.key = true →
    r.after.entry r.key = some e ∧ r.after.reuse r.key = false ∧ r.after.closed = r.before.closed
  removed : ∀ e, r.before.entry r.key = some e → r.before.reuse r.key = false →
    r.after.entry r.key = none ∧ r.after.closed = r.before.closed ++ left_of e
  absent : r.before.entry r.key = none → r.after = r.before
  others : ∀ key, key ≠ r.key →
    r.after.entry key = r.before.entry key ∧ r.after.reuse key = r.before.reuse key

def Toggled (st : state) : Prop :=
  ∀ r ∈ st.removals, r.Toggles

/-- There is an entry, and it is in reuse. -/
def Entries.InReuse (w : Entries) (key : UInt32) : Prop :=
  w.entry key ≠ none ∧ w.reuse key = true

/-- Neither session of the `UDPCom` that is shut down has an entry in reuse. -/
def Unused (st : state) : operation → Prop
  | .shutdown i fd _ => (fd ≤ 0 → ¬ st.pool.InReuse fd.toUInt32) ∧
    ((st.pool.embryonics i).id ≠ 0 → ¬ st.pool.InReuse (st.pool.embryonics i).id)
  | _ => True

/-! ## A removal -/

section
variable {w : Entries} {key : UInt32}

@[simp] theorem entry_erase (other : UInt32) :
    (w.erase key).entry other = if other = key then none else w.entry other := by
  simp [Entries.entry, Entries.erase, Function.update_apply]

@[simp] theorem reuse_erase : (w.erase key).reuse = w.reuse := rfl

@[simp] theorem closed_erase : (w.erase key).closed = w.closed := rfl

/-- The pool in which the socket of an entry was closed. -/
def close_left (it : Record) (w : Entries) : Entries :=
  match it.socket_left with
  | some left => if left > 0 then w.kill_socket left else w
  | none => w

theorem close_left_spec (it : Record) (w : Entries) : (close_left it w).com = w.com ∧
    (close_left it w).reuse = w.reuse ∧ (close_left it w).closed = w.closed ++ left_of it := by
  unfold close_left left_of
  cases it.socket_left with
  | none => simp
  | some left =>
    by_cases hleft : left > 0
    · simp [hleft, Entries.kill_socket]
    · simp [hleft]

theorem remove_absent (h : w.entry key = none) : w.remove_datagram_entry key = (0, w) := by
  simp [Entries.remove_datagram_entry, h]

theorem remove_unused {it : Record} (h : w.entry key = some it) (hreuse : w.reuse key = false) :
    w.remove_datagram_entry key = (1, (close_left it w).erase key) := by
  simp [Entries.remove_datagram_entry, h, hreuse, close_left]

theorem remove_reused {it : Record} (h : w.entry key = some it) (hreuse : w.reuse key = true) :
    w.remove_datagram_entry key = (1, (w.set_reuse key false).erase key) := by
  simp [Entries.remove_datagram_entry, h, hreuse]

/-- The entry is erased, with the flag or without it. -/
theorem remove_entry (other : UInt32) : (w.remove_datagram_entry key).2.entry other =
    if other = key then none else w.entry other := by
  cases hentry : w.entry key with
  | none =>
    rw [remove_absent hentry]
    split
    next heq => rw [heq, hentry]
    next => rfl
  | some it =>
    cases hreuse : w.reuse key with
    | false =>
      have hcom := (close_left_spec it w).1
      rw [remove_unused hentry hreuse, entry_erase]
      simp only [Entries.entry, hcom]
    | true =>
      rw [remove_reused hentry hreuse, entry_erase]
      rfl

theorem remove_reuse {other : UInt32} (hne : other ≠ key) :
    (w.remove_datagram_entry key).2.reuse other = w.reuse other := by
  cases hentry : w.entry key with
  | none => rw [remove_absent hentry]
  | some it =>
    cases hreuse : w.reuse key with
    | false => simp [remove_unused hentry hreuse, close_left_spec]
    | true => simp [remove_reused hentry hreuse, Entries.set_reuse, hne]

theorem in_reuse_remove {other : UInt32} : (w.remove_datagram_entry key).2.InReuse other ↔
    w.InReuse other ∧ other ≠ key := by
  unfold Entries.InReuse
  rw [remove_entry]
  by_cases heq : other = key
  · simp [heq]
  · simp [heq, remove_reuse heq]

/-- Without the flag, a removal is right. -/
theorem removal_toggles (h : ¬ w.InReuse key) :
    (removal.mk key w (w.remove_datagram_entry key).2).Toggles where
  kept := by
    intro e he hset
    exact absurd ⟨by simp [he], hset⟩ h
  removed := by
    intro e he hunset
    refine ⟨?_, ?_⟩
    · simp [remove_entry]
    · simp [remove_unused he hunset, close_left_spec]
  absent := by
    intro hnone
    simp [remove_absent hnone]
  others := by
    intro other hne
    refine ⟨?_, remove_reuse hne⟩
    rw [remove_entry, if_neg hne]

/-- With the flag, the entry is erased. -/
theorem removal_not_toggles (h : w.InReuse key) :
    ¬ (removal.mk key w (w.remove_datagram_entry key).2).Toggles := by
  obtain ⟨it, hentry⟩ := Option.ne_none_iff_exists'.mp h.1
  intro htoggles
  have hkept := (htoggles.kept it hentry h.2).1
  simp [remove_entry] at hkept

end

/-! ## One operation -/

section
variable {st st' : state} {key : UInt32}

theorem toggled_remove : Toggled (st.remove key) ↔ Toggled st ∧ ¬ st.pool.InReuse key := by
  have happend : Toggled (st.remove key) ↔ Toggled st ∧
      (removal.mk key st.pool (st.pool.remove_datagram_entry key).2).Toggles := by
    simp [Toggled, state.remove, or_imp, forall_and]
  rw [happend]
  constructor
  · exact fun h => ⟨h.1, fun hreuse => removal_not_toggles hreuse h.2⟩
  · exact fun h => ⟨h.1, removal_toggles h.2⟩

theorem toggled_shutdown_fd (i : Nat) (fd : Int32) (resolved : Option String) :
    Toggled (st.shutdown_fd i fd resolved) ↔
      Toggled st ∧ (fd ≤ 0 → ¬ st.pool.InReuse fd.toUInt32) := by
  unfold state.shutdown_fd
  by_cases hfd : fd > 0
  · have hreal : ¬ fd ≤ 0 := by
      simpa using hfd
    simp [hfd, hreal, Toggled]
  · have hvirtual : fd ≤ 0 := by
      simpa using hfd
    rw [if_neg hfd, toggled_remove]
    simp only [hvirtual, true_imp_iff]
    exact Iff.rfl

theorem in_reuse_shutdown_fd (i : Nat) (fd : Int32) (resolved : Option String) :
    (st.shutdown_fd i fd resolved).pool.InReuse key ↔
      st.pool.InReuse key ∧ (fd ≤ 0 → key ≠ fd.toUInt32) := by
  unfold state.shutdown_fd
  by_cases hfd : fd > 0
  · have hreal : ¬ fd ≤ 0 := by
      simpa using hfd
    simp [hfd, hreal, Entries.InReuse, Entries.entry]
  · have hvirtual : fd ≤ 0 := by
      simpa using hfd
    rw [if_neg hfd]
    simp only [hvirtual, true_imp_iff]
    exact in_reuse_remove

/-- A removal behind another one of the same `UDPCom` finds its entry as it was. -/
theorem toggled_shutdown (i : Nat) (fd : Int32) (resolved : Option String) :
    Toggled (st.shutdown i fd resolved) ↔ Toggled st ∧ Unused st (.shutdown i fd resolved) := by
  unfold state.shutdown
  simp only
  split
  next hid =>
    rw [toggled_remove]
    change (Toggled (st.shutdown_fd i fd resolved) ∧
      ¬ (st.shutdown_fd i fd resolved).pool.InReuse _) ↔ _
    rw [toggled_shutdown_fd, in_reuse_shutdown_fd]
    simp only [Unused, ne_eq, hid, not_false_eq_true, true_imp_iff]
    grind
  next hid =>
    rw [toggled_shutdown_fd]
    simp only [Unused, hid, false_imp_iff, and_true]

/-- The pool changes, and nothing is removed. -/
theorem toggled_of_same (h : Toggled st) (hs : st'.removals = st.removals) : Toggled st' := by
  unfold Toggled
  rw [hs]
  exact h

theorem step_toggled {a : operation} (h : Toggled st) (hs : step st a = some st') :
    Toggled st' ↔ Unused st a := by
  cases a with
  | add_first_datagrams dist o red socket_left =>
    cases hs
    exact iff_of_true (toggled_of_same h rfl) trivial
  | hand_over i virtual_socket =>
    simp only [step] at hs
    split at hs <;> cases hs <;> exact iff_of_true (toggled_of_same h rfl) trivial
  | read i fd n peek real =>
    obtain ⟨r, -, rfl⟩ := Option.map_eq_some_iff.mp hs
    exact iff_of_true (toggled_of_same h rfl) trivial
  | connect i nonlocal_src l3_proto host port gai_result =>
    cases hs
    exact iff_of_true (toggled_of_same h rfl) trivial
  | reuse key b =>
    simp only [step] at hs
    split at hs <;> cases hs <;> exact iff_of_true (toggled_of_same h rfl) trivial
  | shutdown i fd resolved =>
    cases hs
    rw [toggled_shutdown]
    simp [h]

end

/-! ## Runs -/

theorem toggled_start : Toggled {} := by
  simp [Toggled]

/-- Each removal keeps the entry that is in reuse, and closes the socket of another one, when, and only
when, no removal finds an entry in reuse. -/
theorem removals_toggle (calls : List operation) :
    Always step Toggled {} calls ↔ Meets step Unused {} calls :=
  always_iff_meets (fun _ h => h) (fun _ _ _ h hc hs => (step_toggled h hs).mpr hc)
    (fun _ _ _ h hc hs => mt (step_toggled h hs).mp hc) toggled_start calls

/-- A session with the key 5 has an entry, which a `UDPCom` removes though it is in reuse. -/
theorem a_reused_entry_is_erased : ¬ ∀ calls : List operation, Always step Toggled {} calls := by
  intro hall
  let dist : generator := fun _ => 5
  let src : sockaddr_storage := { ss_family := AF_INET, port := 1 }
  let o : origin := { src, dst := src }
  let key := o.info.create_session_key dist true
  let first : state := { pool := ({} : Entries).add_first_datagrams dist o (some [1]) (some 9) }
  obtain ⟨it, hit⟩ : ∃ it, first.pool.entry key = some it := by
    simp [first, key, Entries.entry, Entries.add_first_datagrams,
      DatagramCom.add_first_datagrams, DatagramCom.put]
  have hreuse : step first (.reuse key true) =
      some { first with pool := first.pool.set_reuse key true } := by
    simp [step, hit]
  have hall := (hall [.add_first_datagrams dist o (some [1]) (some 9), .reuse key true,
    .shutdown 0 key.toInt32 none]).2 first rfl
  have htoggled := always_here ((hall.2 _ hreuse).2 _ rfl)
  rw [toggled_shutdown] at htoggled
  apply htoggled.2.1 (by decide)
  refine ⟨?_, ?_⟩
  · change first.pool.entry key ≠ none
    simp [hit]
  · simp [Entries.set_reuse, key]

end socle.udp.entries
