-- The early datagrams of a session (Datagram::rx_queue of udpcom.hpp): an array
-- of buffers. A datagram takes the first empty one, and a read takes from the
-- first one that is not empty (UDPCom::read_from_pool).
import Mathlib.Data.List.TakeWhile
import Mathlib.Tactic
import Socle.BufferBytes
import Socle.Lib.Run

namespace socle.udp

open lib.known lib.run

/-! ## The queue -/

section
variable {β : Type}

/-- `buffer::flush` on the bytes of a buffer. To flush no byte is to flush them all. -/
def flush (bytes : Nat) (l : List β) : List β :=
  if bytes = 0 ∨ bytes ≥ l.length then [] else l.drop bytes

/-- It is what `flush` does to a buffer. -/
theorem flush_shown {b : membuf.buffer} {w : membuf.World} {l : List (Option UInt8)}
    (h : At w.mem b.data_ l) (hl : l.length = b.size_) (n : Nat) :
    membuf.Shows (b.flush n w) (flush n l) :=
  membuf.flush_shows h hl

/-- `rx_queue`: an array of five buffers. -/
structure rx_queue (β : Type) where
  elems : List (List β) := [[], [], [], [], []]
  size : elems.length = 5 := by rfl

def rx_queue.queue_bytes (q : rx_queue β) : Nat :=
  (q.elems.map List.length).sum

/-- `enqueue`: the number of bytes that are stored, and the buffers. -/
def enqueue (data : List β) : List (List β) → Nat × List (List β)
  | [] => (0, [])
  | elem :: rest =>
    if elem = [] then (data.length, (elem ++ data) :: rest)
    else ((enqueue data rest).1, elem :: (enqueue data rest).2)

/-- The loop of `read_from_pool` over the buffers: the bytes that are copied, and the buffers. The
sizes are of `int`. To copy a negative number of bytes is undefined. -/
def read_elem (n : Nat) (peek : Bool) : List (List β) → Option (List β × List (List β))
  | [] => some ([], [])
  | queue_elem :: rest =>
    let elem_size := (Int32.ofNat queue_elem.length).toInt
    if elem_size ≤ 0 then (read_elem n peek rest).map fun r => (r.1, queue_elem :: r.2)
    else
      let to_copy := min (Int32.ofNat n).toInt elem_size
      if to_copy < 0 then none
      else
        some (queue_elem.take to_copy.toNat,
          (if peek then queue_elem else flush to_copy.toNat queue_elem) :: rest)

theorem enqueue_length (data : List β) (elems : List (List β)) :
    (enqueue data elems).2.length = elems.length := by
  induction elems with
  | nil => rfl
  | cons elem rest ih =>
    unfold enqueue
    split_ifs
    · rfl
    · rw [List.length_cons, ih, List.length_cons]

theorem read_elem_length {n : Nat} {peek : Bool} {elems : List (List β)}
    {r : List β × List (List β)} (h : read_elem n peek elems = some r) :
    r.2.length = elems.length := by
  induction elems generalizing r with
  | nil =>
    cases h
    rfl
  | cons elem rest ih =>
    simp only [read_elem] at h
    split_ifs at h
    · obtain ⟨q, hq, rfl⟩ := Option.map_eq_some_iff.mp h
      rw [List.length_cons, ih hq, List.length_cons]
    · cases h
      rfl
    · cases h
      rfl

/-! ## The datagrams of a session -/

structure Datagram (β : Type) where
  rx_queue : rx_queue β := {}
  socket_left : Option Int := none

/-- What a read gives: bytes of the pool, or what the real socket gives. -/
inductive read_result (β : Type)
  | copied (bytes : List β)
  | recv (socket_left : Int)

def Datagram.enqueue (d : Datagram β) (data : List β) : Nat × Datagram β :=
  let r := udp.enqueue data d.rx_queue.elems
  (r.1, { d with rx_queue := ⟨r.2, (enqueue_length data _).trans d.rx_queue.size⟩ })

/-- `read_from_pool`, for a session that is in `datagrams_received`. -/
def Datagram.read_from_pool (d : Datagram β) (n : Nat) (peek : Bool) :
    Option (read_result β × Datagram β) :=
  match d.socket_left, d.rx_queue.queue_bytes with
  -- pool empty, reading from real socket
  | some fd, 0 => some (.recv fd, d)
  | none, 0 => some (.copied [], d)
  | _, _ + 1 =>
    match h : read_elem n peek d.rx_queue.elems with
    | none => none
    | some r =>
      some (.copied r.1,
        { d with rx_queue := ⟨r.2, (read_elem_length h).trans d.rx_queue.size⟩ })

end

/-! ## Runs -/

/-- A byte with the number of its datagram. -/
abbrev numbered := Nat × UInt8

/-- The buffer of `add_first_datagrams`. -/
def buff_sz : Nat := 2048

/-- A session with its past. No function of the code keeps more than `entry`. `count` numbers the
datagrams that were accepted, `accepted` and `read` are all the bytes, `last` are those of the last
read, and `refused` are the buffers that the last refused datagram found. -/
structure Session where
  entry : Datagram numbered := {}
  defined : Bool := true
  count : Nat := 0
  accepted : List numbered := []
  read : List numbered := []
  last : List numbered := []
  refused : Option (List (List numbered)) := none

inductive operation
  | datagram (buff : List UInt8)
  | read (n : Nat)

/-- `add_first_datagrams`, which gets `buff_sz` bytes at most, and a read of the owner. -/
def step (s : Session) : operation → Option Session
  | .datagram buff =>
    if s.defined = false ∨ buff.length > buff_sz then none
    else
      let data := buff.map fun b => (s.count, b)
      let enk := s.entry.enqueue data
      if buff.length ≠ enk.1 then
        some { s with entry := enk.2, refused := some s.entry.rx_queue.elems }
      else some { s with entry := enk.2, count := s.count + 1, accepted := s.accepted ++ data }
  | .read n =>
    if s.defined = false then none
    else
      match s.entry.read_from_pool n false with
      | none => some { s with defined := false }
      | some (.recv _, d) => some { s with entry := d, last := [] }
      | some (.copied bytes, d) =>
        some { s with entry := d, read := s.read ++ bytes, last := bytes }

/-! ## The law -/

/-- The bytes in the buffers, in the order in which reads take them. -/
def Session.queued (s : Session) : List numbered :=
  s.entry.rx_queue.elems.flatten

/-- What was read is what was accepted, in its order, and the rest is in the buffers. -/
structure InOrder (s : Session) : Prop where
  defined : s.defined = true
  order : s.read <+: s.accepted
  kept : (s.read ++ s.queued).Perm s.accepted
  /-- A read gives bytes of one datagram. -/
  single : ∀ b ∈ s.last, ∀ b' ∈ s.last, b.1 = b'.1
  /-- A datagram is refused only when all buffers are occupied. -/
  refused : ∀ elems ∈ s.refused, [] ∉ elems

/-- A number of bytes to read, which is positive as an `int` too. -/
def usual (n : Nat) : Prop :=
  0 < (Int32.ofNat n).toInt

/-- It is so now, and behind what the owner reads next. -/
def Fifo (s : Session) : Prop :=
  ∀ sizes : List Nat, (∀ n ∈ sizes, usual n) → Always step InOrder s (sizes.map .read)

/-- No buffer behind the first empty one is occupied when a datagram comes, and a read from buffers
that are not all empty asks for a usual number of bytes. -/
def Packed (s : Session) : operation → Prop
  | .datagram buff =>
    buff ≠ [] → ∀ elem ∈ s.entry.rx_queue.elems.dropWhile (· ≠ []), elem = []
  | .read n => s.queued ≠ [] → usual n

/-! ## One operation -/

section
variable {β : Type}

/-- A datagram finds all buffers occupied, or takes the first one that is not. -/
theorem enqueue_cases (data : List β) (elems : List (List β)) :
    ([] ∉ elems ∧ enqueue data elems = (0, elems)) ∨
      ∃ before behind, elems = before ++ [] :: behind ∧ [] ∉ before ∧
        enqueue data elems = (data.length, before ++ data :: behind) := by
  induction elems with
  | nil => exact Or.inl ⟨List.not_mem_nil, rfl⟩
  | cons elem rest ih =>
    by_cases helem : elem = []
    · subst helem
      exact Or.inr ⟨[], rest, rfl, List.not_mem_nil, by simp [enqueue]⟩
    · rcases ih with ⟨hfull, hkept⟩ | ⟨before, behind, rfl, hbefore, htaken⟩
      · left
        refine ⟨?_, by simp [enqueue, helem, hkept]⟩
        exact List.not_mem_cons_of_ne_of_not_mem (Ne.symm helem) hfull
      · right
        refine ⟨elem :: before, behind, rfl, ?_, by simp [enqueue, helem, htaken]⟩
        exact List.not_mem_cons_of_ne_of_not_mem (Ne.symm helem) hbefore

theorem int_of_small {n : Nat} (h : n ≤ buff_sz) : (Int32.ofNat n).toInt = n := by
  apply Int32.toInt_ofNat_of_lt
  unfold buff_sz at h
  omega

/-- A read finds all buffers empty, or takes from the first one that is not. -/
theorem read_elem_cases (n : Nat) (peek : Bool) {elems : List (List β)}
    (hsmall : ∀ elem ∈ elems, elem.length ≤ buff_sz) :
    (elems.flatten = [] ∧ read_elem n peek elems = some ([], elems)) ∨
      ∃ before elem behind, elems = before ++ elem :: behind ∧ before.flatten = [] ∧ elem ≠ [] ∧
        read_elem n peek elems =
          if (Int32.ofNat n).toInt < 0 then none
          else some (elem.take (min (Int32.ofNat n).toInt.toNat elem.length),
            before ++ (if peek then elem
              else flush (min (Int32.ofNat n).toInt.toNat elem.length) elem) :: behind) := by
  induction elems with
  | nil => exact Or.inl ⟨rfl, rfl⟩
  | cons elem rest ih =>
    have hsize := int_of_small (hsmall elem List.mem_cons_self)
    by_cases helem : elem = []
    · subst helem
      have hskip : read_elem n peek ([] :: rest) =
          (read_elem n peek rest).map fun r => (r.1, [] :: r.2) := by
        rw [read_elem, hsize, if_pos (by simp)]
      rcases ih fun e he => hsmall e (List.mem_cons_of_mem _ he) with
        ⟨hempty, hnone⟩ | ⟨before, elem, behind, rfl, hbefore, hne, hread⟩
      · left
        rw [hskip, hnone]
        exact ⟨hempty, rfl⟩
      · right
        refine ⟨[] :: before, elem, behind, rfl, hbefore, hne, ?_⟩
        rw [hskip, hread]
        split_ifs <;> rfl
    · right
      refine ⟨[], elem, rest, rfl, rfl, helem, ?_⟩
      have hpos : 0 < elem.length := List.length_pos_iff.mpr helem
      have hlen : ¬ (elem.length : Int) ≤ 0 := by omega
      rw [read_elem, hsize, if_neg hlen]
      by_cases hneg : (Int32.ofNat n).toInt < 0
      · have hmin : min (Int32.ofNat n).toInt elem.length < 0 := by omega
        simp only [if_pos hneg, if_pos hmin]
      · have hmin : ¬ min (Int32.ofNat n).toInt elem.length < 0 := by omega
        have hnat : (min (Int32.ofNat n).toInt elem.length).toNat =
            min (Int32.ofNat n).toInt.toNat elem.length := by omega
        simp only [if_neg hneg, if_neg hmin, hnat, List.nil_append]

/-- To flush some of the bytes leaves the others. -/
theorem flush_drop {k : Nat} (h : 0 < k) (l : List β) : flush k l = l.drop k := by
  unfold flush
  split_ifs with hall
  · have hle : l.length ≤ k := hall.resolve_left h.ne'
    exact (List.drop_eq_nil_of_le hle).symm
  · rfl

theorem queue_bytes_eq (q : rx_queue β) : q.queue_bytes = q.elems.flatten.length :=
  List.length_flatten.symm

/-- A read of buffers that are all empty. -/
theorem read_from_pool_empty {d : Datagram β} (h : d.rx_queue.elems.flatten = []) (n : Nat)
    (peek : Bool) :
    d.read_from_pool n peek = some (.copied [], d) ∨
      ∃ fd, d.read_from_pool n peek = some (.recv fd, d) := by
  have hzero : d.rx_queue.queue_bytes = 0 := by rw [queue_bytes_eq, h, List.length_nil]
  unfold Datagram.read_from_pool
  split
  next fd hfd _ => exact Or.inr ⟨fd, rfl⟩
  next => exact Or.inl rfl
  next hbytes =>
    rw [hzero] at hbytes
    cases hbytes

/-- A read of buffers that are not is what the loop over them gives. -/
theorem read_from_pool_elem {d : Datagram β} (h : d.rx_queue.elems.flatten ≠ []) (n : Nat)
    (peek : Bool) :
    (read_elem n peek d.rx_queue.elems = none ∧ d.read_from_pool n peek = none) ∨
      ∃ r d', read_elem n peek d.rx_queue.elems = some r ∧
        d.read_from_pool n peek = some (.copied r.1, d') ∧ d'.rx_queue.elems = r.2 := by
  have hpos : d.rx_queue.queue_bytes ≠ 0 := by
    rw [queue_bytes_eq]
    exact fun hzero => h (List.eq_nil_of_length_eq_zero hzero)
  unfold Datagram.read_from_pool
  split
  next hbytes => exact absurd hbytes hpos
  next hbytes => exact absurd hbytes hpos
  next =>
    split
    next hnone => exact Or.inl ⟨hnone, rfl⟩
    next r hr => exact Or.inr ⟨r, _, hr, rfl, rfl⟩

end

/-! ## Reads -/

/-- The buffers are as large as a datagram at most. -/
def Small (s : Session) : Prop :=
  ∀ elem ∈ s.entry.rx_queue.elems, elem.length ≤ buff_sz

/-- A read takes bytes from the front of what is queued. -/
structure Takes (s s' : Session) : Prop where
  flow : s'.read ++ s'.queued = s.read ++ s.queued
  fewer : s'.queued.length ≤ s.queued.length - 1
  elems : ∀ elem' ∈ s'.entry.rx_queue.elems, ∃ elem ∈ s.entry.rx_queue.elems, elem' <:+ elem
  last : s'.last = [] ∨ ∃ elem ∈ s.entry.rx_queue.elems, s'.last ⊆ elem
  defined : s'.defined = s.defined
  count : s'.count = s.count
  accepted : s'.accepted = s.accepted
  refused : s'.refused = s.refused

theorem read_takes {s : Session} (hdefined : s.defined = true) (hsmall : Small s) {n : Nat}
    (hn : s.queued ≠ [] → usual n) : ∃ s', step s (.read n) = some s' ∧ Takes s s' := by
  by_cases hempty : s.entry.rx_queue.elems.flatten = []
  · have hfewer : s.queued.length ≤ s.queued.length - 1 := by
      rw [Session.queued, hempty, List.length_nil]
    have hkept : ∀ elem ∈ s.entry.rx_queue.elems,
        ∃ e ∈ s.entry.rx_queue.elems, elem <:+ e := fun e he => ⟨e, he, List.suffix_rfl⟩
    rcases read_from_pool_empty hempty n false with hread | ⟨fd, hread⟩
    · refine ⟨{ s with last := [] }, by simp [step, hdefined, hread], ?_⟩
      exact ⟨rfl, hfewer, hkept, Or.inl rfl, rfl, rfl, rfl, rfl⟩
    · refine ⟨{ s with last := [] }, by simp [step, hdefined, hread], ?_⟩
      exact ⟨rfl, hfewer, hkept, Or.inl rfl, rfl, rfl, rfl, rfl⟩
  · rcases read_elem_cases n false hsmall with
      ⟨hall, -⟩ | ⟨before, elem, behind, helems, hbefore, hne, hread⟩
    · exact absurd hall hempty
    · have hpos : 0 < (Int32.ofNat n).toInt := hn hempty
      have hlen : 0 < elem.length := List.length_pos_iff.mpr hne
      have hk : 0 < min (Int32.ofNat n).toInt.toNat elem.length := by omega
      rw [if_neg (by omega), if_neg Bool.false_ne_true, flush_drop hk] at hread
      generalize min (Int32.ofNat n).toInt.toNat elem.length = k at hread hk
      rcases read_from_pool_elem hempty n false with ⟨hnone, -⟩ | ⟨r, d, hr, hpool, hd⟩
      · rw [hread] at hnone
        cases hnone
      · rw [hread, Option.some.injEq] at hr
        subst hr
        have hin : elem ∈ s.entry.rx_queue.elems := by
          rw [helems]
          exact List.mem_append_right _ List.mem_cons_self
        have hbefore' : s.queued = elem ++ behind.flatten := by
          rw [Session.queued, helems, List.flatten_append, hbefore, List.nil_append,
            List.flatten_cons]
        have hbehind : (before ++ elem.drop k :: behind).flatten = elem.drop k ++ behind.flatten := by
          rw [List.flatten_append, hbefore, List.nil_append, List.flatten_cons]
        have hqueued : d.rx_queue.elems.flatten = elem.drop k ++ behind.flatten := by
          rw [hd, hbehind]
        refine ⟨{ s with entry := d, read := s.read ++ elem.take k, last := elem.take k },
          by simp [step, hdefined, hpool], ?_⟩
        constructor
        · rw [Session.queued, hqueued, hbefore', List.append_assoc,
            ← List.append_assoc (elem.take k), List.take_append_drop]
        · rw [Session.queued, hqueued, hbefore', List.length_append, List.length_append,
            List.length_drop]
          omega
        · intro elem' helem'
          simp only [hd, List.mem_append, List.mem_cons] at helem'
          rcases helem' with hmem | rfl | hmem
          · refine ⟨elem', ?_, List.suffix_rfl⟩
            rw [helems]
            exact List.mem_append_left _ hmem
          · exact ⟨elem, hin, List.drop_suffix k elem⟩
          · refine ⟨elem', ?_, List.suffix_rfl⟩
            rw [helems]
            exact List.mem_append_right _ (List.mem_cons_of_mem _ hmem)
        · exact Or.inr ⟨elem, hin, List.take_subset k elem⟩
        · rfl
        · rfl
        · rfl
        · rfl

theorem Takes.small {s s' : Session} (h : Takes s s') (hs : Small s) : Small s' := by
  intro elem' helem'
  obtain ⟨elem, helem, hsuffix⟩ := h.elems elem' helem'
  exact hsuffix.length_le.trans (hs elem helem)

/-- Reads that go on long enough read what is queued. -/
theorem reads_drain {n : Nat} {s : Session} (hdefined : s.defined = true) (hsmall : Small s)
    (hn : s.queued.length ≤ n) :
    ∃ s', exec step s ((List.replicate n 1).map .read) = some s' ∧
      s'.read = s.read ++ s.queued ∧ s'.accepted = s.accepted := by
  induction n generalizing s with
  | zero =>
    have hempty : s.queued = [] := List.eq_nil_of_length_eq_zero (by omega)
    exact ⟨s, rfl, by rw [hempty, List.append_nil], rfl⟩
  | succ n ih =>
    have hone : usual 1 := by unfold usual; decide
    obtain ⟨t, ht, htakes⟩ := read_takes hdefined hsmall (n := 1) fun _ => hone
    have hfewer : t.queued.length ≤ n := by
      have hle := htakes.fewer
      omega
    obtain ⟨s', hs', hread, haccepted⟩ :=
      ih (htakes.defined.trans hdefined) (htakes.small hsmall) hfewer
    refine ⟨s', ?_, hread.trans htakes.flow, haccepted.trans htakes.accepted⟩
    rw [List.replicate_succ, List.map_cons, exec_cons, ht]
    exact hs'

/-! ## Each run -/

/-- The invariant. A buffer has bytes of one datagram, and what was read and what is queued are in
the order of arrival. -/
structure Inv (s : Session) : Prop where
  defined : s.defined = true
  flow : s.read ++ s.queued = s.accepted
  numbers : ∀ b ∈ s.accepted, b.1 < s.count
  whole : ∀ elem ∈ s.entry.rx_queue.elems, ∀ b ∈ elem, ∀ b' ∈ elem, b.1 = b'.1
  small : Small s
  single : ∀ b ∈ s.last, ∀ b' ∈ s.last, b.1 = b'.1
  refused : ∀ elems ∈ s.refused, [] ∉ elems

theorem start_inv (socket_left : Option Int) :
    Inv { entry := { socket_left := socket_left } } where
  defined := rfl
  flow := rfl
  numbers := fun _ h => absurd h List.not_mem_nil
  whole := by
    intro elem helem b hb
    simp only [List.mem_cons, List.not_mem_nil, or_false, or_self] at helem
    rw [helem] at hb
    cases hb
  small := by
    intro elem helem
    simp only [List.mem_cons, List.not_mem_nil, or_false, or_self] at helem
    rw [helem]
    exact Nat.zero_le _
  single := fun _ h => absurd h List.not_mem_nil
  refused := fun _ h => by cases h

theorem Inv.in_order {s : Session} (hs : Inv s) : InOrder s where
  defined := hs.defined
  order := ⟨s.queued, hs.flow⟩
  kept := List.Perm.of_eq hs.flow
  single := hs.single
  refused := hs.refused

theorem Inv.takes {s s' : Session} (hs : Inv s) (h : Takes s s') : Inv s' where
  defined := h.defined.trans hs.defined
  flow := by rw [h.flow, hs.flow, h.accepted]
  numbers := by
    rw [h.accepted, h.count]
    exact hs.numbers
  whole := by
    intro elem' helem' b hb b' hb'
    obtain ⟨elem, helem, hsuffix⟩ := h.elems elem' helem'
    exact hs.whole elem helem b (hsuffix.subset hb) b' (hsuffix.subset hb')
  small := h.small hs.small
  single := by
    intro b hb b' hb'
    rcases h.last with hlast | ⟨elem, helem, hlast⟩
    · rw [hlast] at hb
      cases hb
    · exact hs.whole elem helem b (hlast hb) b' (hlast hb')
  refused := by
    rw [h.refused]
    exact hs.refused

/-- The law holds in each state that meets the invariant. -/
theorem Inv.fifo {s : Session} (hs : Inv s) : Fifo s := by
  intro sizes hsizes
  have hmeets : Meets step (fun _ op => ∃ n, op = .read n ∧ usual n) s (sizes.map .read) := by
    apply meets_of_forall
    intro op hop _
    obtain ⟨n, hn, rfl⟩ := List.mem_map.mp hop
    exact ⟨n, rfl, hsizes n hn⟩
  refine (always_of_meets (P := Inv) ?_ hs hmeets).mono fun _ h => h.in_order
  rintro t op t' ht ⟨n, rfl, hn⟩ hstep
  obtain ⟨u, hu, htakes⟩ := read_takes ht.defined ht.small (n := n) fun _ => hn
  rw [hstep, Option.some.injEq] at hu
  subst hu
  exact ht.takes htakes

/-- When the law holds, what was read and what is queued are in the order of arrival. -/
theorem Fifo.flow {s : Session} (h : Fifo s) (hsmall : Small s) :
    s.read ++ s.queued = s.accepted := by
  have hnow : InOrder s := always_here (h [] (by simp))
  obtain ⟨s', hrun, hread, haccepted⟩ := reads_drain hnow.defined hsmall (le_refl _)
  have hthen : InOrder s' := by
    refine always_exec (h (List.replicate s.queued.length 1) ?_) hrun
    intro n hn
    rw [List.eq_of_mem_replicate hn]
    unfold usual
    decide
  have horder := hthen.order
  rw [hread, haccepted] at horder
  exact horder.eq_of_length hnow.kept.length_eq

/-! ## A datagram -/

/-- What a datagram leaves: nothing, or its bytes in the first empty buffer. -/
theorem datagram_cases {s s' : Session} {buff : List UInt8}
    (h : step s (.datagram buff) = some s') :
    s.defined = true ∧ buff.length ≤ buff_sz ∧
      (([] ∉ s.entry.rx_queue.elems ∧ s'.entry.rx_queue.elems = s.entry.rx_queue.elems ∧
        (buff ≠ [] ∧ s' = { s with
            entry := s'.entry, refused := some s.entry.rx_queue.elems } ∨
          buff = [] ∧ s' = { s with entry := s'.entry, count := s.count + 1 })) ∨
      ∃ before behind, s.entry.rx_queue.elems = before ++ [] :: behind ∧ [] ∉ before ∧
        s'.entry.rx_queue.elems = before ++ (buff.map fun b => (s.count, b)) :: behind ∧
        s' = { s with
          entry := s'.entry
          count := s.count + 1
          accepted := s.accepted ++ buff.map fun b => (s.count, b) }) := by
  unfold step at h
  simp only at h
  split_ifs at h with hno hrefused
  · push Not at hno
    refine ⟨by simpa using hno.1, hno.2, ?_⟩
    cases h
    left
    rcases enqueue_cases (buff.map fun b => (s.count, b)) s.entry.rx_queue.elems with
      ⟨hfull, hkept⟩ | ⟨before, behind, -, -, htaken⟩
    · have hzero : (s.entry.enqueue (buff.map fun b => (s.count, b))).1 = 0 := by
        simp [Datagram.enqueue, hkept]
      refine ⟨hfull, by simp [Datagram.enqueue, hkept], Or.inl ⟨fun hnil => ?_, rfl⟩⟩
      rw [hzero, hnil] at hrefused
      exact hrefused rfl
    · exact absurd (by simp [Datagram.enqueue, htaken]) hrefused
  · push Not at hno
    refine ⟨by simpa using hno.1, hno.2, ?_⟩
    cases h
    rw [ne_eq, not_not] at hrefused
    rcases enqueue_cases (buff.map fun b => (s.count, b)) s.entry.rx_queue.elems with
      ⟨hfull, hkept⟩ | ⟨before, behind, helems, hbefore, htaken⟩
    · left
      have hnil : buff = [] := by
        apply List.eq_nil_of_length_eq_zero
        rw [hrefused]
        simp [Datagram.enqueue, hkept]
      refine ⟨hfull, by simp [Datagram.enqueue, hkept], Or.inr ⟨hnil, ?_⟩⟩
      simp [hnil]
    · right
      exact ⟨before, behind, helems, hbefore, by simp [Datagram.enqueue, htaken], rfl⟩

/-- The buffers from the first empty one on, when it is the one behind these. -/
theorem dropWhile_first {β : Type} {before behind : List (List β)} (h : [] ∉ before) :
    (before ++ [] :: behind).dropWhile (· ≠ []) = [] :: behind := by
  rw [List.dropWhile_append_of_pos]
  · simp
  · intro elem helem
    simpa using fun hnil : elem = [] => h (hnil ▸ helem)

theorem flatten_eq_nil_of_forall {β : Type} {elems : List (List β)} (h : ∀ e ∈ elems, e = []) :
    elems.flatten = [] :=
  List.flatten_eq_nil_iff.mpr h

/-- Nothing comes into the buffers. -/
theorem Inv.unchanged {s s' : Session} (hs : Inv s)
    (helems : s'.entry.rx_queue.elems = s.entry.rx_queue.elems) {count : Nat}
    {refused : Option (List (List numbered))} (hcount : s.count ≤ count)
    (hrefused : ∀ elems ∈ refused, [] ∉ elems)
    (hs' : s' = { s with entry := s'.entry, count := count, refused := refused }) : Inv s' := by
  have hqueued : s'.queued = s.queued := by
    rw [Session.queued, helems]
    rfl
  constructor
  · rw [hs']
    exact hs.defined
  · rw [hqueued, hs']
    exact hs.flow
  · rw [hs']
    exact fun b hb => (hs.numbers b hb).trans_le hcount
  · rw [helems]
    exact hs.whole
  · unfold Small
    rw [helems]
    exact hs.small
  · rw [hs']
    exact hs.single
  · rw [hs']
    exact hrefused

theorem Inv.datagram {s s' : Session} (hs : Inv s) {buff : List UInt8}
    (hc : Packed s (.datagram buff)) (h : step s (.datagram buff) = some s') : Inv s' := by
  obtain ⟨-, hlen, ⟨hfull, helems, ⟨-, hs'⟩ | ⟨-, hs'⟩⟩ |
    ⟨before, behind, hold, hbefore, hnew, hs'⟩⟩ := datagram_cases h
  · refine hs.unchanged helems (le_refl _) (fun elems hin => ?_) hs'
    rw [Option.mem_some_iff] at hin
    exact hin ▸ hfull
  · exact hs.unchanged helems (Nat.le_succ _) hs.refused hs'
  · have hbehind : buff ≠ [] → behind.flatten = [] := by
      intro hne
      have hall := hc hne
      rw [hold, dropWhile_first hbefore] at hall
      exact flatten_eq_nil_of_forall fun e he => hall e (List.mem_cons_of_mem _ he)
    have hqueued : s'.queued = s.queued ++ buff.map fun b => (s.count, b) := by
      rw [Session.queued, Session.queued, hnew, hold, List.flatten_append, List.flatten_append,
        List.flatten_cons, List.flatten_cons, List.nil_append, List.append_assoc]
      by_cases hnil : buff = []
      · simp [hnil]
      · simp [hbehind hnil]
    have hin : ∀ elem ∈ s'.entry.rx_queue.elems, elem ∈ s.entry.rx_queue.elems ∨
        elem = buff.map fun b => (s.count, b) := by
      intro elem helem
      rw [hnew, List.mem_append, List.mem_cons] at helem
      rw [hold, List.mem_append, List.mem_cons]
      tauto
    constructor
    · rw [hs']
      exact hs.defined
    · rw [hqueued, hs', ← List.append_assoc, hs.flow]
    · rw [hs']
      intro b hb
      rcases List.mem_append.mp hb with hb | hb
      · exact (hs.numbers b hb).trans (Nat.lt_succ_self _)
      · obtain ⟨x, -, rfl⟩ := List.mem_map.mp hb
        exact Nat.lt_succ_self _
    · intro elem helem b hb b' hb'
      rcases hin elem helem with helem | rfl
      · exact hs.whole elem helem b hb b' hb'
      · obtain ⟨x, -, rfl⟩ := List.mem_map.mp hb
        obtain ⟨x', -, rfl⟩ := List.mem_map.mp hb'
        rfl
    · intro elem helem
      rcases hin elem helem with helem | rfl
      · exact hs.small elem helem
      · rw [List.length_map]
        exact hlen
    · rw [hs']
      exact hs.single
    · rw [hs']
      exact hs.refused

/-- A datagram in front of an older one is read before it. -/
theorem Inv.datagram_breaks {s s' : Session} (hs : Inv s) {buff : List UInt8}
    (hc : ¬ Packed s (.datagram buff)) (h : step s (.datagram buff) = some s') : ¬ Fifo s' := by
  intro hfifo
  simp only [Packed] at hc
  push Not at hc
  obtain ⟨hne, elem, helem, hoccupied⟩ := hc
  obtain ⟨-, hlen, ⟨hfull, -⟩ | ⟨before, behind, hold, hbefore, hnew, hs'⟩⟩ := datagram_cases h
  · have hnone : s.entry.rx_queue.elems.dropWhile (· ≠ []) = [] := by
      rw [List.dropWhile_eq_nil_iff]
      intro e he
      simpa using fun hnil : e = [] => hfull (hnil ▸ he)
    rw [hnone] at helem
    cases helem
  · rw [hold, dropWhile_first hbefore, List.mem_cons] at helem
    have hin : elem ∈ behind := helem.resolve_left hoccupied
    obtain ⟨x, rest, hbuff⟩ := List.exists_cons_of_ne_nil hne
    have hsmall : Small s' := by
      intro e he
      rw [hnew, List.mem_append, List.mem_cons] at he
      have hsmall := hs.small e
      rw [hold, List.mem_append, List.mem_cons] at hsmall
      rcases he with he | rfl | he
      · exact hsmall (Or.inl he)
      · rw [List.length_map]
        exact hlen
      · exact hsmall (Or.inr (Or.inr he))
    have hflow := hfifo.flow hsmall
    have hqueued : s'.queued =
        before.flatten ++ ((buff.map fun b => (s.count, b)) ++ behind.flatten) := by
      rw [Session.queued, hnew, List.flatten_append, List.flatten_cons]
    have hold' : s.queued = before.flatten ++ behind.flatten := by
      rw [Session.queued, hold, List.flatten_append, List.flatten_cons, List.nil_append]
    have hread : s'.read = s.read := by rw [hs']
    have haccepted : s'.accepted = s.accepted ++ buff.map fun b => (s.count, b) := by rw [hs']
    rw [hqueued, hread, haccepted, ← hs.flow, hold', List.append_assoc, List.append_assoc,
      List.append_cancel_left_eq, List.append_cancel_left_eq] at hflow
    -- the new bytes come first in the buffers, and last in the order of arrival
    obtain ⟨y, hy⟩ := List.exists_mem_of_ne_nil elem hoccupied
    have hne' : behind.flatten ≠ [] :=
      List.ne_nil_of_mem (List.mem_flatten.mpr ⟨elem, hin, hy⟩)
    obtain ⟨z, zs, hz⟩ := List.exists_cons_of_ne_nil hne'
    rw [hbuff, hz, List.map_cons, List.cons_append, List.cons_append, List.cons.injEq] at hflow
    have hnumber : z.1 < s.count := by
      apply hs.numbers
      rw [← hs.flow, hold', hz]
      simp
    rw [← hflow.1] at hnumber
    exact Nat.lt_irrefl _ hnumber

/-- A read of no byte flushes a datagram, and one of a negative number is undefined. -/
theorem Inv.read_breaks {s s' : Session} (hs : Inv s) {n : Nat} (hc : ¬ Packed s (.read n))
    (h : step s (.read n) = some s') : ¬ Fifo s' := by
  intro hfifo
  have hnow : InOrder s' := always_here (hfifo [] (by simp))
  simp only [Packed, usual] at hc
  push Not at hc
  obtain ⟨hne, hle⟩ := hc
  rcases read_elem_cases n false hs.small with
    ⟨hall, -⟩ | ⟨before, elem, behind, helems, hbefore, helem, hread⟩
  · exact hne hall
  · rcases read_from_pool_elem hne n false with ⟨-, hpool⟩ | ⟨r, d, hr, hpool, hd⟩
    · simp only [step, hs.defined, Bool.true_eq_false, if_false, hpool, Option.some.injEq] at h
      have hdefined := hnow.defined
      rw [← h] at hdefined
      cases hdefined
    · simp only [step, hs.defined, Bool.true_eq_false, if_false, hpool, Option.some.injEq] at h
      rw [hr, if_neg Bool.false_ne_true] at hread
      split_ifs at hread with hneg
      have hzero : (Int32.ofNat n).toInt.toNat = 0 := by omega
      rw [hzero, Nat.zero_min, Option.some.injEq] at hread
      have hflushed : flush 0 elem = [] := by simp [flush]
      have hlen := hnow.kept.length_eq
      have hold := congrArg List.length hs.flow
      rw [← h] at hlen
      simp only [Session.queued, hd, hread, hflushed, helems, List.flatten_append,
        List.flatten_cons, List.length_append, List.take_zero, List.length_nil] at hlen hold
      have hpos : 0 < elem.length := List.length_pos_iff.mpr helem
      omega

/-- In each state of a run the reads give, and will give, what was accepted in its order when, and
only when, no datagram comes in front of an occupied buffer and no read of a buffer asks for
no byte, or for more of them than an `int` can count. -/
theorem early_datagrams_are_fifo (socket_left : Option Int) (ops : List operation) :
    Always step Fifo { entry := { socket_left := socket_left } } ops ↔
      Meets step Packed { entry := { socket_left := socket_left } } ops := by
  apply always_iff_meets (P := Inv) fun _ h => h.fifo
  · intro s op s' hs hc h
    cases op with
    | datagram buff => exact hs.datagram hc h
    | read n =>
      obtain ⟨t, ht, htakes⟩ := read_takes hs.defined hs.small hc
      rw [h, Option.some.injEq] at ht
      subst ht
      exact hs.takes htakes
  · intro s op s' hs hc h
    cases op with
    | datagram buff => exact hs.datagram_breaks hc h
    | read n => exact hs.read_breaks hc h
  · exact start_inv socket_left

/-- The third datagram comes when the first one was read, and goes into its buffer. -/
def refilled_in_front : List operation :=
  [.datagram [1], .datagram [2], .read 100, .datagram [3], .read 100]

/-- The third datagram is read before the second one. -/
theorem a_later_datagram_is_read_first :
    ¬ ∀ (socket_left : Option Int) (ops : List operation),
      Always step InOrder { entry := { socket_left := socket_left } } ops := by
  intro hall
  have hend : ∃ s, exec step ({} : Session) refilled_in_front = some s ∧
      s.read = [(0, 1), (2, 3)] ∧ s.accepted = [(0, 1), (1, 2), (2, 3)] := ⟨_, rfl, rfl, rfl⟩
  obtain ⟨s, hrun, hread, haccepted⟩ := hend
  have horder := (always_exec (hall none refilled_in_front) hrun).order
  rw [hread, haccepted] at horder
  exact absurd horder (by decide)

end socle.udp
