-- Reading into the buffer of a connection (hostcx.cpp: read, grow_buffer and
-- finish). A read asks for as much as there is room for, and takes 0 bytes for
-- the end of the stream.
import Socle.AppHostCX

namespace socle.hostcx.reading

open lib.run apphostcx

/-! ## One read -/

/-- What the surroundings of a `read` give: the status of the peer's com, if there is a peer, whether
the peer has too much to write, what `io_read` and `process_in` return, and what the pool has for a
full buffer. -/
structure turn where
  peercom : Option Bool := none
  peer_full : Bool := false
  cur_io_len : Int
  processed : Nat
  resized : Option chunks := some .plenty

/-- The read side of a `baseHostCX`, with its error flag. No function of the code keeps `refused`: how
many bytes `io_read` was asked for in each `read` that set the flag. -/
structure reader where
  inp : readSide
  error_ : Bool := false
  refused : List Nat := []

namespace reader

/-- `read` in front of `io_read`, and whether it comes there. -/
def before_io (t : turn) (r : reader) : Bool × reader :=
  let r := { r with inp := r.inp.read_waiting_for_peercom t.peercom }
  if r.inp.read_waiting_for_peercom_ then (false, r)
  else if t.peer_full then (false, r)
  else if r.inp.read_limit_ = some 0 then
    (false, { r with inp := { r.inp with read_limit_ := none } })
  else (true, if r.inp.auto_finish_ then { r with inp := r.inp.finish } else r)

/-- `read` from `io_read` on. -/
def from_io (cfg : config) (t : turn) (r : reader) : Int × reader :=
  if t.cur_io_len < 0 then
    (-1, { r with inp := { r.inp with processed_in_ := 0, read_limit_ := none } })
  else if t.cur_io_len = 0 then
    (0, {
      inp := { r.inp with read_limit_ := none }
      error_ := true
      refused := r.refused ++ [r.inp.max_bytes_left] })
  else
    let chunk := List.range' r.inp.meter_read_bytes t.cur_io_len.toNat
    let inp := (r.inp.put cfg t.resized chunk).after_read t.processed chunk.length
    (down_cast t.cur_io_len, { r with inp := { inp with read_limit_ := none } })

def read (cfg : config) (t : turn) (r : reader) : Int × reader :=
  match r.before_io t with
  | (false, r) => (-1, r)
  | (true, r) => r.from_io cfg t

end reader

/-! ## Runs -/

inductive operation
  | read (t : turn)
  | finish
  -- the setters of what `read` looks at
  | auto_finish (a : Bool)
  | read_waiting_for_peercom (p : Bool)
  | read_limit (s : Option Nat)

/-- `io_read` gives no more than it is asked for, and `process_in` no more than there is. -/
def turn.Fair (t : turn) (r : reader) : Prop :=
  t.cur_io_len ≤ r.inp.max_bytes_left ∧
    t.processed ≤ r.inp.readbuf_.length + t.cur_io_len.toNat

instance (t : turn) (r : reader) : Decidable (t.Fair r) :=
  inferInstanceAs (Decidable (_ ∧ _))

def step (cfg : config) (r : reader) : operation → Option reader
  | .read t => if t.Fair (r.before_io t).2 then some (r.read cfg t).2 else none
  | .finish => some { r with inp := r.inp.finish }
  | .auto_finish a => some { r with inp := { r.inp with auto_finish_ := a } }
  | .read_waiting_for_peercom p =>
    some { r with inp := { r.inp with read_waiting_for_peercom_ := p } }
  | .read_limit s => some { r with inp := { r.inp with read_limit_ := s } }

/-- A new connection. Its buffer begins with nothing. -/
def start (cfg : config) (p : chunks) : reader :=
  { inp := { capacity := p.capacity 0 cfg.buffsize } }

/-! ## The law -/

/-- The flag was set where bytes were asked for and none came, and the buffer is in its capacity. -/
structure Grounded (r : reader) : Prop where
  flagged : r.error_ = true → r.refused ≠ []
  refused : ∀ len ∈ r.refused, 0 < len
  bounded : r.inp.readbuf_.length ≤ r.inp.capacity

/-- The buffer is full, and nothing will be taken from it. -/
def reader.Stuck (r : reader) : Prop :=
  (r.inp.auto_finish_ = false ∨ r.inp.capacity = 0) ∧ r.inp.capacity ≤ r.inp.readbuf_.length

/-- A `read` that asks for nothing does not get nothing. -/
def Unstuck (r : reader) : operation → Prop
  | .read t => (r.before_io t).1 = true → r.Stuck → t.cur_io_len ≠ 0
  | _ => True

/-! ## The buffer -/

section
variable {s : readSide}

theorem max_bytes_left_eq_zero : s.max_bytes_left = 0 ↔ s.capacity ≤ s.readbuf_.length := by
  unfold readSide.max_bytes_left
  simp only
  split <;> omega

theorem max_bytes_left_le : s.max_bytes_left ≤ s.capacity - s.readbuf_.length := by
  unfold readSide.max_bytes_left
  simp only
  split <;> omega

theorem flush_length_lt {α : Type} {n : Nat} {l : List α} (hl : l ≠ []) :
    (flush n l).length < l.length := by
  have hpos := List.length_pos_iff.mpr hl
  unfold flush
  split
  next => exact hpos
  next hn =>
    rw [List.length_drop]
    omega

@[simp] theorem finish_capacity : s.finish.capacity = s.capacity := by
  unfold readSide.finish
  split_ifs <;> rfl

theorem finish_length_lt (h : s.readbuf_ ≠ []) : s.finish.readbuf_.length < s.readbuf_.length := by
  unfold readSide.finish
  split_ifs
  · exact flush_length_lt h
  · exact flush_length_lt h

theorem finish_of_nil (h : s.readbuf_ = []) : s.finish = s := by
  simp [readSide.finish, h]

theorem finish_length_le : s.finish.readbuf_.length ≤ s.readbuf_.length := by
  by_cases h : s.readbuf_ = []
  · rw [finish_of_nil h]
  · exact Nat.le_of_lt (finish_length_lt h)

/-- A finished buffer has room. -/
theorem finish_room (h : s.readbuf_.length ≤ s.capacity) (hcap : s.capacity ≠ 0) :
    s.finish.readbuf_.length < s.capacity := by
  by_cases hnil : s.readbuf_ = []
  · rw [finish_of_nil hnil, hnil, List.length_nil]
    exact Nat.pos_of_ne_zero hcap
  · exact Nat.lt_of_lt_of_le (finish_length_lt hnil) h

/-- What `finish` leaves as it is. -/
theorem finish_same : s.finish = { s with readbuf_ := s.finish.readbuf_ } := by
  unfold readSide.finish
  split_ifs <;> rfl

/-- The buffer with a chunk behind it, in front of `post_read`. -/
structure Put (s : readSide) (chunk : List Nat) (processed : Nat) (s' : readSide) : Prop where
  readbuf : s'.readbuf_ = s.readbuf_ ++ chunk
  capacity : s.capacity ≤ s'.capacity
  meter : s'.meter_read_bytes = s.meter_read_bytes + chunk.length
  called : s.meter_read_bytes + chunk.length > s.processed_in_total_ → s'.processed_in_ = processed
  skipped : ¬ s.meter_read_bytes + chunk.length > s.processed_in_total_ → s'.processed_in_ = 0

theorem put_spec (cfg : config) (resized : Option chunks) (chunk : List Nat) (processed : Nat) :
    Put s chunk processed ((s.put cfg resized chunk).after_read processed chunk.length) := by
  have hput : ∃ capacity, s.capacity ≤ capacity ∧ s.put cfg resized chunk =
      { s with readbuf_ := s.readbuf_ ++ chunk, capacity } := by
    simp only [readSide.put, readSide.grow_buffer]
    split_ifs
    · exact ⟨_, Nat.le_refl _, rfl⟩
    · cases resized with
      | none => exact ⟨_, Nat.le_refl _, rfl⟩
      | some p => exact ⟨_, p.capacity_ge _ _, rfl⟩
    · exact ⟨_, Nat.le_refl _, rfl⟩
    · exact ⟨_, Nat.le_refl _, rfl⟩
  obtain ⟨capacity, hcapacity, hput⟩ := hput
  rw [hput]
  unfold readSide.after_read
  by_cases hmeter : s.meter_read_bytes + chunk.length > s.processed_in_total_
  · simp only [if_pos hmeter]
    exact ⟨rfl, hcapacity, rfl, fun _ => rfl, fun h => absurd hmeter h⟩
  · simp only [if_neg hmeter]
    exact ⟨rfl, hcapacity, rfl, fun h => absurd h hmeter, fun _ => rfl⟩

end

/-! ## In front of io_read -/

section
variable {r r' : reader} {t : turn}

/-- `read` finishes the buffer before it comes to `io_read`, or leaves it as it is. -/
structure Prepared (r : reader) (res : Bool × reader) : Prop where
  error : res.2.error_ = r.error_
  refused : res.2.refused = r.refused
  capacity : res.2.inp.capacity = r.inp.capacity
  meter : res.2.inp.meter_read_bytes = r.inp.meter_read_bytes
  processed : res.2.inp.processed_in_ = r.inp.processed_in_
  total : res.2.inp.processed_in_total_ = r.inp.processed_in_total_
  readbuf : res.2.inp.readbuf_ =
    if res.1 ∧ r.inp.auto_finish_ then r.inp.finish.readbuf_ else r.inp.readbuf_

theorem before_io_prepared (t : turn) (r : reader) : Prepared r (r.before_io t) := by
  have hwaiting : ∃ p, r.inp.read_waiting_for_peercom t.peercom =
      { r.inp with read_waiting_for_peercom_ := p } := by
    unfold readSide.read_waiting_for_peercom
    split
    · split
      · exact ⟨_, rfl⟩
      · exact ⟨_, rfl⟩
    · exact ⟨_, rfl⟩
  obtain ⟨p, hp⟩ := hwaiting
  unfold reader.before_io
  rw [hp]
  simp only
  split_ifs with h₁ h₂ h₃ hauto
  · exact ⟨rfl, rfl, rfl, rfl, rfl, rfl, rfl⟩
  · exact ⟨rfl, rfl, rfl, rfl, rfl, rfl, rfl⟩
  · exact ⟨rfl, rfl, rfl, rfl, rfl, rfl, rfl⟩
  · rw [finish_same]
    refine ⟨rfl, rfl, rfl, rfl, rfl, rfl, ?_⟩
    simp only [hauto, and_self, if_true]
    unfold readSide.finish
    split_ifs <;> rfl
  · refine ⟨rfl, rfl, rfl, rfl, rfl, rfl, ?_⟩
    simp [hauto]

/-- There is no room where the buffer is full and nothing is finished. -/
theorem no_room_iff (hbounded : r.inp.readbuf_.length ≤ r.inp.capacity)
    (harrives : (r.before_io t).1 = true) :
    (r.before_io t).2.inp.max_bytes_left = 0 ↔ r.Stuck := by
  have hprepared := before_io_prepared t r
  rw [max_bytes_left_eq_zero, hprepared.capacity, hprepared.readbuf, harrives]
  unfold reader.Stuck
  cases hauto : r.inp.auto_finish_ with
  | false => simp
  | true =>
    have hroom := finish_room hbounded
    have hle := finish_length_le (s := r.inp)
    simp only [and_self, if_true, Bool.true_eq_false, false_or]
    omega

/-! ## One operation -/

theorem Grounded.of_same (h : Grounded r) (herror : r'.error_ = r.error_)
    (hrefused : r'.refused = r.refused) (hbounded : r'.inp.readbuf_.length ≤ r'.inp.capacity) :
    Grounded r' := by
  refine ⟨?_, ?_, hbounded⟩
  · rw [herror, hrefused]
    exact h.flagged
  · rw [hrefused]
    exact h.refused

theorem before_io_grounded (h : Grounded r) (t : turn) : Grounded (r.before_io t).2 := by
  have hprepared := before_io_prepared t r
  apply h.of_same hprepared.error hprepared.refused
  rw [hprepared.capacity, hprepared.readbuf]
  split
  next => exact finish_length_le.trans h.bounded
  next => exact h.bounded

/-- From `io_read` on. -/
theorem from_io_grounded (h : Grounded r) (cfg : config) (hfair : t.Fair r) :
    Grounded (r.from_io cfg t).2 ↔ (t.cur_io_len = 0 → r.inp.max_bytes_left ≠ 0) := by
  unfold reader.from_io
  split_ifs with hneg hzero
  · exact iff_of_true (h.of_same rfl rfl h.bounded) fun hz => by omega
  · simp only [hzero, true_imp_iff]
    constructor
    · intro hgrounded
      have hpos := hgrounded.refused r.inp.max_bytes_left (by simp)
      exact Nat.ne_of_gt hpos
    · intro hpos
      refine ⟨by simp, ?_, h.bounded⟩
      intro len hlen
      rcases List.mem_append.mp hlen with hold | hnew
      · exact h.refused len hold
      · rw [List.mem_singleton.mp hnew]
        exact Nat.pos_of_ne_zero hpos
  · refine iff_of_true (h.of_same rfl rfl ?_) fun hz => absurd hz hzero
    have hput := put_spec (s := r.inp) cfg t.resized
      (List.range' r.inp.meter_read_bytes t.cur_io_len.toNat) t.processed
    have hroom := max_bytes_left_le (s := r.inp)
    have hcapacity := hput.capacity
    have hbounded := h.bounded
    have hasked := hfair.1
    simp only
    rw [hput.readbuf, List.length_append]
    rw [List.length_range'] at *
    omega

theorem step_grounded {cfg : config} {a : operation} (h : Grounded r)
    (hs : step cfg r a = some r') : Grounded r' ↔ Unstuck r a := by
  cases a with
  | read t =>
    simp only [step] at hs
    split at hs
    next hfair =>
      cases hs
      unfold reader.read Unstuck
      have hgrounded := before_io_grounded h t
      have hroom := no_room_iff (t := t) h.bounded
      rcases hbefore : r.before_io t with ⟨arrives, r₁⟩
      rw [hbefore] at hfair hgrounded hroom
      simp only [hbefore]
      cases arrives with
      | false => exact iff_of_true hgrounded fun harrives => nomatch harrives
      | true =>
        rw [from_io_grounded hgrounded cfg hfair, ← hroom rfl]
        tauto
    next => cases hs
  | finish =>
    cases hs
    refine iff_of_true (h.of_same rfl rfl ?_) trivial
    exact finish_length_le.trans (h.bounded.trans (Nat.le_of_eq finish_capacity.symm))
  | auto_finish a =>
    cases hs
    exact iff_of_true (h.of_same rfl rfl h.bounded) trivial
  | read_waiting_for_peercom p =>
    cases hs
    exact iff_of_true (h.of_same rfl rfl h.bounded) trivial
  | read_limit s =>
    cases hs
    exact iff_of_true (h.of_same rfl rfl h.bounded) trivial

end

/-! ## Runs -/

theorem start_grounded (cfg : config) (p : chunks) : Grounded (start cfg p) where
  flagged := by simp [start]
  refused := by simp [start]
  bounded := by simp [start]

/-- The error flag tells of the end of the stream when, and only when, no `read` gets 0 bytes in a
buffer that is full and stays full. -/
theorem errors_are_grounded (cfg : config) (p : chunks) (ops : List operation) :
    Always (step cfg) Grounded (start cfg p) ops ↔ Meets (step cfg) Unstuck (start cfg p) ops :=
  always_iff_meets (fun _ h => h) (fun _ _ _ h hc hs => (step_grounded h hs).mpr hc)
    (fun _ _ _ h hc hs => mt (step_grounded h hs).mp hc) (start_grounded cfg p) ops

/-- A buffer of at most four bytes gets the smallest chunk, of 32 bytes, and may not grow. It is
filled, and nothing is finished: the next `read` asks for 0 bytes, gets them, and takes the connection
for closed. -/
theorem a_full_buffer_ends_the_stream :
    ¬ ∀ (cfg : config) (p : chunks) (ops : List operation),
      Always (step cfg) Grounded (start cfg p) ops := by
  intro hall
  let cfg : config := { buffsize := 4, buffsize_maxmul := 1 }
  have hgrounded := always_exec (hall cfg .plenty [.auto_finish false,
    .read { cur_io_len := 32, processed := 0 }, .read { cur_io_len := 0, processed := 0 }]) rfl
  have hpos := hgrounded.refused 0 (by decide)
  exact absurd hpos (by decide)

end socle.hostcx.reading
