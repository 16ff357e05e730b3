-- A connection that keeps a flow of what it reads and writes, for detection
-- (apphostcx.cpp, with read and write of hostcx.cpp). A byte that comes from
-- the socket stands in the read buffer as its place in the stream.
import Mathlib.Tactic
import Socle.Flow
import Socle.PoolLedger
import Socle.WriteStream

namespace socle.apphostcx

open lib.run hostcx flows

/-! ## Data -/

/-- The tunables of `AppHostCX::config`, `FlowEntry::config_t` and `baseHostCX::params_t`. -/
structure config where
  max_detect_bytes : UInt32 := 2048
  min_detect_bytes : UInt32 := 1024
  max_exchanges : UInt32 := 20
  continuous_data_left_default : Nat := 100000
  opt_switch_to_continuous : Bool := true
  max_flow_size : Nat := 10 * 1024 * 1024
  buffsize : Nat := 2048
  buffsize_maxmul : Nat := 1024

inductive mode_t
  | NONE | PRE | POST | CONTINUOUS
deriving DecidableEq

/-- The read side of a `baseHostCX`. -/
structure readSide where
  readbuf_ : List Nat := []
  capacity : Nat
  meter_read_bytes : Nat := 0
  meter_read_count : UInt32 := 0
  processed_in_ : Nat := 0
  processed_in_total_ : Nat := 0
  read_limit_ : Option Nat := none
  auto_finish_ : Bool := true
  read_waiting_for_peercom_ : Bool := false

/-- An `AppHostCX`. No function of the code reads `captured_r` and `captured_w`, which are what was
appended to the flow, and `exceeded`, which is set when the detection ranges were found exceeded. -/
structure AppHostCX where
  cx : baseHostCX UInt8 := {}
  inp : readSide
  l4_proto : Int := SOCK_STREAM
  mode_ : mode_t := .NONE
  flow : Flow Char := {}
  peek_read_counter : Nat := 0
  peek_write_counter : Nat := 0
  continuous_data_left : Nat := 0
  captured_r : List Nat := []
  captured_w : List UInt8 := []
  exceeded : Bool := false

def SOCK_DGRAM : Int := 2

/-- The difference of two numbers of the type `size_type`. -/
def size_sub (a b : Nat) : Nat :=
  if b ≤ a then a - b else a + 2 ^ 64 - b

/-- `buffer::view`, or nothing when it throws `out_of_range`. -/
def view {α : Type} (pos len : Nat) (b : List α) : Option (List α) :=
  if pos < b.length then
    if pos + len ≤ b.length then some ((b.drop pos).take len) else some (b.drop pos)
  else none

/-! ## The room of a buffer -/

/-- What the pool has for a buffer, by the size that is asked for: the capacity of a chunk that is
never smaller. -/
@[ext]
structure chunks where
  acquire : Nat → Nat
  fits (c : Nat) : c ≤ acquire c

namespace chunks

/-- `buffer::capacity` of a buffer that has `capacity_`. Requests to decrease it are ignored. -/
def capacity (p : chunks) (capacity_ c : Nat) : Nat :=
  if capacity_ ≥ c then capacity_ else p.acquire c

/-- Every bucket of the pool has a chunk left. -/
def plenty : chunks where
  acquire c := if c = 0 then 0 else ((mempool.pick_bucket c).map (·.sz)).getD c
  fits c := by
    split_ifs with hzero
    · exact Nat.le_of_eq hzero
    · cases hpick : mempool.pick_bucket c with
      | none => exact Nat.le_refl c
      | some id => exact mempool.pick_bucket_fits hpick

section
variable {ι : Type} [DecidableEq ι] {T : ι → Option mempool.mem_chunk} {w : mempool.memPool}

/-- What a pool has whose ledger is sound. -/
def of_pool (A : mempool.Allocator) (h : mempool.Sound w T) (i : ι) : chunks where
  acquire c := (w.acquire A c).1.capacity
  fits c := by
    by_cases hzero : c = 0
    · rw [hzero]
      exact Nat.zero_le _
    · exact (h.acquire A (i := i) hzero).2

theorem of_pool_plenty (A : mempool.Allocator) (h : mempool.Sound w T) (i : ι)
    (hleft : ∀ id, (w.bucket id).bucket ≠ []) : of_pool A h i = plenty := by
  ext c
  simp only [of_pool, plenty]
  by_cases hzero : c = 0
  · simp [hzero, mempool.memPool.acquire]
  · rw [if_neg hzero]
    rcases mempool.acquire_cases A w hzero with
      ⟨id, chunk, rest, hpick, hbucket, heq⟩ | ⟨hempty, heq⟩
    · have hsize := (h.free_carved id chunk (by rw [hbucket]; exact List.mem_cons_self)).2
      simp [heq, hpick, hsize]
    · cases hpick : mempool.pick_bucket c with
      | none => simp [heq, mempool.memPool.from_heap]
      | some id => exact absurd (hempty id hpick) (hleft id)

end

theorem capacity_ge (p : chunks) (capacity_ c : Nat) : capacity_ ≤ p.capacity capacity_ c := by
  unfold capacity
  split_ifs with hless
  · exact Nat.le_refl _
  · exact (Nat.le_of_not_le hless).trans (p.fits c)

end chunks

/-! ## The read side -/

namespace readSide

/-- `read_waiting_for_peercom`. `peercom` is the status of the peer's com, if there is a peer. -/
def read_waiting_for_peercom (peercom : Option Bool) (s : readSide) : readSide :=
  if s.read_waiting_for_peercom_ then
    match peercom with
    | some com_status => { s with read_waiting_for_peercom_ := !com_status }
    | none => s
  else s

def finish (s : readSide) : readSide :=
  if s.readbuf_.length ≥ s.processed_in_ ∧ s.processed_in_ > 0 then
    { s with readbuf_ := flush s.processed_in_ s.readbuf_ }
  else if s.readbuf_ = [] then s
  -- best-effort recovery: flushing all
  else { s with readbuf_ := flush s.readbuf_.length s.readbuf_ }

/-- What `io_read` may give at most. -/
def max_bytes_left (s : readSide) : Nat :=
  let left := s.capacity - s.readbuf_.length
  let this_read_op_limit := s.read_limit_.getD 0
  if this_read_op_limit > 0 ∧ left > this_read_op_limit then this_read_op_limit else left

/-- `grow_buffer`. Under memory tension the buffer is not resized, and there are no chunks. -/
def grow_buffer (cfg : config) (resized : Option chunks) (s : readSide) : readSide :=
  if s.capacity * 2 ≤ cfg.buffsize_maxmul * cfg.buffsize then
    match resized with
    | some p => { s with capacity := p.capacity s.capacity (s.capacity * 2) }
    | none => s
  else s

/-- The loop of `read`, which never takes a second turn, when `io_read` gave `chunk`. -/
def put (cfg : config) (resized : Option chunks) (chunk : List Nat) (s : readSide) : readSide :=
  let this_read_op_limit := s.read_limit_.getD 0
  let s := { s with readbuf_ := s.readbuf_ ++ chunk }
  if this_read_op_limit > 0 ∧ chunk.length ≥ this_read_op_limit then s
  else if s.readbuf_.length ≥ s.capacity then s.grow_buffer cfg resized
  else s

/-- `after_read` before its `post_read`. `process_in` returns `processed`. -/
def after_read (processed buffer_written_len : Nat) (s : readSide) : readSide :=
  let s := { s with
    meter_read_bytes := s.meter_read_bytes + buffer_written_len
    meter_read_count := s.meter_read_count + 1
    processed_in_ := 0 }
  if s.meter_read_bytes > s.processed_in_total_ then
    { s with processed_in_ := processed, processed_in_total_ := s.processed_in_total_ + processed }
  else s

end readSide

/-! ## Detection -/

namespace AppHostCX

variable (cfg : config)

def bytes_total (a : AppHostCX) : Nat :=
  a.cx.meter_write_bytes + a.inp.meter_read_bytes

def inside_detect_ranges (a : AppHostCX) : Bool :=
  a.bytes_total ≤ cfg.max_detect_bytes.toNat &&
    (a.flow.flow_queue_.length < cfg.max_exchanges.toNat ||
      a.bytes_total ≤ cfg.min_detect_bytes.toNat)

/-- A call of `inside_detect_ranges` is noted. -/
def detect_ranges (a : AppHostCX) : Bool × AppHostCX :=
  (a.inside_detect_ranges cfg, { a with exceeded := a.exceeded || !a.inside_detect_ranges cfg })

def acknowledge_continuous_mode (to_read_bytes : Nat) (a : AppHostCX) : AppHostCX :=
  { a with continuous_data_left :=
      if to_read_bytes = 0 then cfg.continuous_data_left_default else to_read_bytes }

def inside_detect_on_continue (a : AppHostCX) : Bool × AppHostCX :=
  match a.detect_ranges cfg with
  | (true, a) => (true, a)
  | (false, a) =>
    if a.mode_ = .CONTINUOUS then (true, a)
    else if cfg.opt_switch_to_continuous then
      -- default continuous flow data, after which continuous mode would expire
      (true, { a.acknowledge_continuous_mode cfg 0 with mode_ := .CONTINUOUS })
    else (false, a)

def continuous_mode_keeper (data_size : Nat) (a : AppHostCX) : AppHostCX :=
  let a :=
    if a.flow.flow_queue_.length > 4 then
      { a with flow := { a.flow with flow_queue_ := a.flow.flow_queue_.drop 2 } }
    else a
  if data_size > a.continuous_data_left then
    { a with continuous_data_left := 0, mode_ := .NONE }
  else { a with continuous_data_left := a.continuous_data_left - data_size }

/-- `flow().append('w', delta_b)`, and the bytes are counted. -/
def append_w (delta_b : List UInt8) (a : AppHostCX) : AppHostCX :=
  { a with
    flow := a.flow.append cfg.max_flow_size 'w' delta_b
    peek_write_counter := a.peek_write_counter + delta_b.length
    captured_w := a.captured_w ++ delta_b }

/-- `flow().append('r', data)`, for bytes of the stream. -/
def append_r (stream : Nat → UInt8) (data : List Nat) (a : AppHostCX) : AppHostCX :=
  { a with
    flow := a.flow.append cfg.max_flow_size 'r' (data.map stream)
    captured_r := a.captured_r ++ data }

/-! ## Writing -/

/-- `pre_write`, and whether it returned. When a view throws it does not. -/
def pre_write (a : AppHostCX) : Bool × AppHostCX :=
  if a.cx.writebuf_ = [] then (true, a)
  else if a.mode_ = .PRE ∨ a.mode_ = .CONTINUOUS then
    match a.inside_detect_on_continue cfg with
    | (false, a) => (true, a)
    | (true, a) =>
      let b := a.cx.writebuf_
      -- how many data I am missing?
      let delta := size_sub (a.cx.meter_write_bytes + b.length) a.peek_write_counter
      if delta > 0 then
        match view (size_sub b.length delta) b.length b with
        | none => (false, a)
        | some delta_b =>
          let a := a.append_w cfg delta_b
          (true, if a.mode_ = .CONTINUOUS then a.continuous_mode_keeper delta_b.length else a)
      else (true, a)
  else (true, a)

/-- `post_write`, and whether it returned. It comes after the meter is raised and before the buffer
is flushed. There is no `back` of an empty flow. -/
def post_write (a : AppHostCX) : Bool × AppHostCX :=
  if a.cx.writebuf_ = [] then (true, a)
  else if a.mode_ = .POST then
    match a.detect_ranges cfg with
    | (false, a) => (true, a)
    | (true, a) =>
      if a.flow.flow_queue_ = [] then (false, a)
      else
        let b := a.cx.writebuf_
        -- how many data I am missing?
        let delta := size_sub (a.cx.meter_write_bytes + b.length) a.peek_write_counter
        match view (size_sub b.length delta) b.length b with
        | none => (false, a)
        | some delta_b =>
          if delta > 0 then (true, a.append_w cfg delta_b) else (true, a)
  else (true, a)

/-- `write` after `pre_write`. -/
def write_out (l : Int) (a : AppHostCX) : Option Int × Option (tx UInt8) × AppHostCX :=
  let cx := a.cx.see_out baseHostCX.process_out
  let t : tx UInt8 := { data := cx.offer, l }
  if l > 0 then
    let raised := { cx with
      meter_write_bytes := cx.meter_write_bytes + l.toNat
      meter_write_count := cx.meter_write_count + 1
      opening_ := false }
    match post_write cfg { a with cx := raised } with
    | (false, a) => (none, some t, a)
    | (true, a) => (some (down_cast l), some t, { a with cx := cx.after_write l })
  else (some (down_cast l), some t, { a with cx := cx.after_write l })

/-- `write`, with `io_write` that returns `l`: what it returns, unless it throws, the call of
`io_write` if there is one, and the connection. -/
def write (peercom : Option Bool) (l : Int) (a : AppHostCX) :
    Option Int × Option (tx UInt8) × AppHostCX :=
  let a := { a with cx := a.cx.write_waiting_for_peercom peercom }
  if a.cx.write_waiting_for_peercom_ then (some 0, none, a)
  else
    match a.pre_write cfg with
    | (false, a) => (none, none, a)
    | (true, a) => a.write_out cfg l

/-! ## Reading -/

/-- What the surroundings of a `read` give: the status of the peer's com, if there is a peer, whether
the peer has too much to write, what the socket has for `peek` when it is asked for so many bytes, and
for `io_read`, what `process_in` returns, and what the pool has for the buffer that is peeked into and
for a full read buffer. -/
structure reading where
  peercom : Option Bool := none
  peer_full : Bool := false
  peek : Nat → Int
  cur_io_len : Int
  processed : Nat
  peeked : chunks := .plenty
  resized : Option chunks := some .plenty

def max_peek_one : Nat := 5000

/-- The loop that peeks, with more room as long as the buffer is filled. -/
def reading.peek_rounds (i : reading) : Nat → Nat → Int → Int
  | 0, _, l => l
  | rounds + 1, capacity, _ =>
    let l := min (i.peek capacity) capacity
    if l ≤ 0 then l
    else if l < capacity then l
    else i.peek_rounds rounds (i.peeked.capacity capacity (capacity + max_peek_one)) l

/-- `peek_all`, with the buffer that `pre_read` makes for it. -/
def reading.peek_all (i : reading) : Int :=
  i.peek_rounds 10 (i.peeked.acquire max_peek_one) (-1)

/-- The part of `pre_read` that copies missed bytes from the read buffer. -/
def salvage (stream : Nat → UInt8) (a : AppHostCX) : Bool × AppHostCX :=
  match a.detect_ranges cfg with
  | (false, a) => (true, a)
  | (true, a) =>
    if a.peek_read_counter < a.inp.meter_read_bytes then
      let delta := a.inp.meter_read_bytes - a.peek_read_counter
      let w := size_sub a.inp.readbuf_.length delta
      match view w delta a.inp.readbuf_ with
      | none => (false, a)
      | some v =>
        (true, if v = [] then a else
          { a.append_r cfg stream v with peek_read_counter := a.peek_read_counter + v.length })
    else (true, a)

/-- The part of `pre_read` that peeks from I/O. -/
def peek_ahead (stream : Nat → UInt8) (i : reading) (a : AppHostCX) : AppHostCX :=
  if a.inp.meter_read_bytes < cfg.max_detect_bytes.toNat then
    let l := i.peek_all
    -- simulate EAGAIN behaviour
    if l < 0 then { a with inp := { a.inp with read_limit_ := some 0 } }
    else if l > 0 then
      let a := { a with peek_read_counter := a.peek_read_counter + l.toNat }
      let a := a.append_r cfg stream (List.range' a.inp.meter_read_bytes l.toNat)
      { a with inp := { a.inp with
          read_limit_ := if a.l4_proto = SOCK_DGRAM then none else some l.toNat } }
    else a
  else a

/-- `pre_read`, and whether it returned. -/
def pre_read (stream : Nat → UInt8) (i : reading) (a : AppHostCX) : Bool × AppHostCX :=
  if a.mode_ = .PRE then
    match a.salvage cfg stream with
    | (false, a) => (false, a)
    | (true, a) => (true, a.peek_ahead cfg stream i)
  else (true, a)

def post_read (stream : Nat → UInt8) (a : AppHostCX) : AppHostCX :=
  if a.inp.readbuf_ = [] then a
  else if a.mode_ = .POST ∨ a.mode_ = .CONTINUOUS then
    match a.inside_detect_on_continue cfg with
    | (false, a) => a
    | (true, a) =>
      let b := a.inp.readbuf_
      let a := a.append_r cfg stream b
      if a.mode_ = .CONTINUOUS then a.continuous_mode_keeper b.length else a
  else a

/-- `read` after `pre_read`. -/
def read_in (stream : Nat → UInt8) (i : reading) (a : AppHostCX) : Int × AppHostCX :=
  if a.inp.read_limit_ = some 0 then (-1, { a with inp := { a.inp with read_limit_ := none } })
  else
    let a := if a.inp.auto_finish_ then { a with inp := a.inp.finish } else a
    let cur_io_len := min i.cur_io_len a.inp.max_bytes_left
    if cur_io_len < 0 then
      (-1, { a with inp := { a.inp with processed_in_ := 0, read_limit_ := none } })
    else if cur_io_len = 0 then
      (0, { a with
        cx := { a.cx with error_ := true }
        inp := { a.inp with read_limit_ := none } })
    else
      let chunk := List.range' a.inp.meter_read_bytes cur_io_len.toNat
      let a := { a with
        cx := { a.cx with opening_ := false }
        inp := (a.inp.put cfg i.resized chunk).after_read i.processed chunk.length }
      let a := a.post_read cfg stream
      (down_cast cur_io_len, { a with inp := { a.inp with read_limit_ := none } })

/-- `read`: what it returns, unless it throws, and the connection. -/
def read (stream : Nat → UInt8) (i : reading) (a : AppHostCX) : Option Int × AppHostCX :=
  let a := { a with inp := a.inp.read_waiting_for_peercom i.peercom }
  if a.inp.read_waiting_for_peercom_ then (some (-1), a)
  else if i.peer_full then (some (-1), a)
  else
    match a.pre_read cfg stream i with
    | (false, a) => (none, a)
    | (true, a) =>
      let (n, a) := a.read_in cfg stream i
      (some n, a)

end AppHostCX

/-! ## Runs -/

/-- A connection, what it was given to write, and how many bytes should have been appended to the
flow: of those that were given, and of those that were read. `thrown` is set when a `write` threw. -/
structure Capture where
  app : AppHostCX
  given : List UInt8 := []
  due_w : Nat := 0
  due_r : Nat := 0
  thrown : Bool := false

inductive operation
  | out (c : hostcx.call UInt8)
  | read (i : AppHostCX.reading)
  -- a proxy takes what it processed, and the setters of the flags that `read` reads
  | finish
  | auto_finish (a : Bool)
  | read_waiting_for_peercom (p : Bool)

namespace AppHostCX

/-- `write` comes to `io_write`. -/
def writes (peercom : Option Bool) (a : AppHostCX) : Bool :=
  !(a.cx.write_waiting_for_peercom peercom).write_waiting_for_peercom_

/-- `read` comes to `pre_read`. -/
def reads (i : reading) (a : AppHostCX) : Bool :=
  !(a.inp.read_waiting_for_peercom i.peercom).read_waiting_for_peercom_ && !i.peer_full

/-- A `write` that should append what was given. In mode `POST` it is one that writes something. -/
def due_in_write (peercom : Option Bool) (l : Int) (a : AppHostCX) : Bool :=
  a.writes peercom && (a.mode_ = .PRE || (a.mode_ = .POST && l > 0))

end AppHostCX

section
variable (cfg : config) (stream : Nat → UInt8)

/-- `io_write` cannot take more than it is offered, and returns a number of the type `ssize_t`. -/
def step (c : Capture) : operation → Option Capture
  | .out (.write peercom l) =>
    match c.app.write cfg peercom l with
    | (res, t, app) =>
      if (∃ t' ∈ t, l > t'.data.length) ∨ l ≥ 2 ^ 63 then none
      else
        some { c with
          app
          due_w := if c.app.due_in_write peercom l then c.given.length else c.due_w
          thrown := c.thrown || res.isNone }
  | .out call =>
    (hostcx.step baseHostCX.process_out { cx := c.app.cx, given := c.given } call).map fun s =>
      { c with app := { c.app with cx := s.cx }, given := s.given }
  | .read i =>
    some { c with
      app := (c.app.read cfg stream i).2
      due_r := if c.app.reads i && c.app.mode_ = .PRE then c.app.inp.meter_read_bytes else c.due_r }
  | .finish => some { c with app := { c.app with inp := c.app.inp.finish } }
  | .auto_finish a => some { c with app := { c.app with inp := { c.app.inp with auto_finish_ := a } } }
  | .read_waiting_for_peercom p =>
    some { c with app := { c.app with inp := { c.app.inp with read_waiting_for_peercom_ := p } } }

end

/-- A new connection. Its read buffer begins with nothing. -/
def start (cfg : config) (p : chunks) (l4_proto : Int) (mode : mode_t) : Capture where
  app := {
    inp := { capacity := p.capacity 0 cfg.buffsize }
    l4_proto
    mode_ := mode
    flow := { domain_ := if l4_proto ≠ 0 then l4_proto else SOCK_STREAM } }

/-! ## What the hooks leave alone -/

namespace AppHostCX

variable {cfg : config} {stream : Nat → UInt8}

/-- What `read` leaves as it is. -/
def write_side (a : AppHostCX) : List UInt8 × Nat × Nat × List UInt8 :=
  (a.cx.writebuf_, a.cx.meter_write_bytes, a.peek_write_counter, a.captured_w)

/-- What `write` leaves as it is. -/
def read_side (a : AppHostCX) : readSide × Nat × List Nat :=
  (a.inp, a.peek_read_counter, a.captured_r)

/-- Unless the detection ranges are found exceeded, an inspection mode stays the same. -/
def Steady (a a' : AppHostCX) : Prop :=
  a'.exceeded = false → a.exceeded = false ∧ (a.mode_ ≠ .CONTINUOUS → a'.mode_ = a.mode_)

theorem Steady.trans {a b c : AppHostCX} (h : Steady a b) (h' : Steady b c) : Steady a c := by
  intro hc
  obtain ⟨hb, hmode'⟩ := h' hc
  obtain ⟨ha, hmode⟩ := h hb
  exact ⟨ha, fun hne => (hmode' (by rw [hmode hne]; exact hne)).trans (hmode hne)⟩

theorem steady_of_eq {a a' : AppHostCX} (he : a'.exceeded = a.exceeded) (hm : a'.mode_ = a.mode_) :
    Steady a a' :=
  fun h => ⟨he.symm.trans h, fun _ => hm⟩

theorem Steady.rfl {a : AppHostCX} : Steady a a :=
  steady_of_eq (Eq.refl _) (Eq.refl _)

theorem steady_of_exceeded {a a' : AppHostCX} (he : a'.exceeded = true) : Steady a a' :=
  fun h => absurd h (by rw [he]; decide)

/-- The mode may be changed after data that came in continuous mode. -/
theorem steady_of_continuous {a a' : AppHostCX} (he : a'.exceeded = a.exceeded)
    (hm : a.mode_ = .CONTINUOUS) : Steady a a' :=
  fun h => ⟨he.symm.trans h, fun hne => absurd hm hne⟩

theorem detect_ranges_steady (cfg : config) (a : AppHostCX) : Steady a (a.detect_ranges cfg).2 := by
  intro h
  simp only [detect_ranges, Bool.or_eq_false_iff] at h
  exact ⟨h.1, fun _ => Eq.refl _⟩

theorem inside_detect_ranges_eq {a a' : AppHostCX} (htotal : a'.bytes_total = a.bytes_total)
    (hflow : a'.flow = a.flow) : a'.inside_detect_ranges cfg = a.inside_detect_ranges cfg := by
  unfold inside_detect_ranges
  rw [htotal, hflow]

/-- Inside the ranges nothing is noted. -/
theorem detect_ranges_inside {a : AppHostCX} (h : a.inside_detect_ranges cfg = true) :
    a.detect_ranges cfg = (true, a) := by
  simp [detect_ranges, h]

theorem detect_ranges_outside {a : AppHostCX} (h : a.inside_detect_ranges cfg = false) :
    a.detect_ranges cfg = (false, { a with exceeded := true }) := by
  simp [detect_ranges, h]

/-- Outside the ranges the mode may change, and nothing else that counts here. -/
theorem inside_detect_on_continue_spec (a : AppHostCX) {b : Bool} {a' : AppHostCX}
    (h : a.inside_detect_on_continue cfg = (b, a')) :
    a'.write_side = a.write_side ∧ a'.read_side = a.read_side ∧ a'.cx = a.cx ∧
      (a.inside_detect_ranges cfg = true ∧ b = true ∧ a' = a ∨ a'.exceeded = true) := by
  unfold inside_detect_on_continue at h
  cases hin : a.inside_detect_ranges cfg with
  | true =>
    rw [detect_ranges_inside hin] at h
    cases h
    exact ⟨rfl, rfl, rfl, Or.inl ⟨rfl, rfl, rfl⟩⟩
  | false =>
    rw [detect_ranges_outside hin] at h
    simp only at h
    split_ifs at h <;> cases h <;> exact ⟨rfl, rfl, rfl, Or.inr rfl⟩

theorem continuous_mode_keeper_spec (n : Nat) (a : AppHostCX) :
    (a.continuous_mode_keeper n).write_side = a.write_side ∧
      (a.continuous_mode_keeper n).read_side = a.read_side ∧
      (a.continuous_mode_keeper n).cx = a.cx ∧
      (a.continuous_mode_keeper n).exceeded = a.exceeded := by
  unfold continuous_mode_keeper
  simp only
  split_ifs <;> exact ⟨rfl, rfl, rfl, rfl⟩

/-- The end of `pre_write` and `post_read`, when the data was appended. -/
theorem keeper_steady (n : Nat) (a : AppHostCX) :
    Steady a (if a.mode_ = .CONTINUOUS then a.continuous_mode_keeper n else a) := by
  split_ifs with hmode
  · exact steady_of_continuous (continuous_mode_keeper_spec n a).2.2.2 hmode
  · exact Steady.rfl

theorem on_continue_steady {a a' : AppHostCX} {b : Bool}
    (h : a.inside_detect_on_continue cfg = (b, a')) : Steady a a' := by
  rcases (inside_detect_on_continue_spec a h).2.2.2 with ⟨-, -, rfl⟩ | hex
  · exact Steady.rfl
  · exact steady_of_exceeded hex

/-! ## Frames -/

theorem pre_write_frame {a a' : AppHostCX} {ok : Bool} (h : a.pre_write cfg = (ok, a')) :
    a'.cx = a.cx ∧ a'.read_side = a.read_side ∧ Steady a a' := by
  unfold pre_write at h
  split_ifs at h with hnil hmode
  · cases h
    exact ⟨rfl, rfl, Steady.rfl⟩
  · cases hc : a.inside_detect_on_continue cfg with
    | mk b a₁ =>
      obtain ⟨-, hread, hcx, -⟩ := inside_detect_on_continue_spec a hc
      have hsteady := on_continue_steady hc
      rw [hc] at h
      cases b with
      | false =>
        cases h
        exact ⟨hcx, hread, hsteady⟩
      | true =>
        simp only at h
        split_ifs at h with hdelta
        · split at h
          next =>
            cases h
            exact ⟨hcx, hread, hsteady⟩
          next delta_b hview =>
            cases h
            refine ⟨?_, ?_, hsteady.trans ((steady_of_eq rfl rfl).trans (keeper_steady _ _))⟩
            · split_ifs
              · exact (continuous_mode_keeper_spec _ _).2.2.1.trans hcx
              · exact hcx
            · split_ifs
              · exact (continuous_mode_keeper_spec _ _).2.1.trans hread
              · exact hread
        · cases h
          exact ⟨hcx, hread, hsteady⟩
  · cases h
    exact ⟨rfl, rfl, Steady.rfl⟩

theorem post_write_frame {a a' : AppHostCX} {ok : Bool} (h : a.post_write cfg = (ok, a')) :
    a'.cx = a.cx ∧ a'.read_side = a.read_side ∧ Steady a a' := by
  unfold post_write at h
  split_ifs at h with hnil hmode
  · cases h
    exact ⟨rfl, rfl, Steady.rfl⟩
  · have hsteady := detect_ranges_steady cfg a
    cases hin : a.inside_detect_ranges cfg with
    | false =>
      rw [detect_ranges_outside hin] at h hsteady
      cases h
      exact ⟨rfl, rfl, hsteady⟩
    | true =>
      rw [detect_ranges_inside hin] at h
      simp only at h
      by_cases hempty : a.flow.flow_queue_ = []
      · rw [if_pos hempty] at h
        cases h
        exact ⟨rfl, rfl, Steady.rfl⟩
      rw [if_neg hempty] at h
      cases hview : view (size_sub a.cx.writebuf_.length
        (size_sub (a.cx.meter_write_bytes + a.cx.writebuf_.length) a.peek_write_counter))
        a.cx.writebuf_.length a.cx.writebuf_ with
      | none =>
        rw [hview] at h
        cases h
        exact ⟨rfl, rfl, Steady.rfl⟩
      | some delta_b =>
        rw [hview] at h
        simp only at h
        split_ifs at h <;> cases h <;> exact ⟨rfl, rfl, steady_of_eq rfl rfl⟩
  · cases h
    exact ⟨rfl, rfl, Steady.rfl⟩

theorem write_out_frame (cfg : config) (l : Int) (a : AppHostCX) :
    (a.write_out cfg l).2.2.read_side = a.read_side ∧ Steady a (a.write_out cfg l).2.2 := by
  unfold write_out
  simp only
  split
  next hl =>
    split
    next a' hpost =>
      obtain ⟨-, hread, hsteady⟩ := post_write_frame hpost
      exact ⟨hread, (steady_of_eq rfl rfl).trans hsteady⟩
    next a' hpost =>
      obtain ⟨-, hread, hsteady⟩ := post_write_frame hpost
      exact ⟨hread, (steady_of_eq rfl rfl).trans (hsteady.trans (steady_of_eq rfl rfl))⟩
  next => exact ⟨rfl, steady_of_eq rfl rfl⟩

theorem write_frame (cfg : config) (peercom : Option Bool) (l : Int) (a : AppHostCX) :
    (a.write cfg peercom l).2.2.read_side = a.read_side ∧ Steady a (a.write cfg peercom l).2.2 := by
  unfold write
  simp only
  split
  next => exact ⟨rfl, steady_of_eq rfl rfl⟩
  next =>
    have hstart : Steady a { a with cx := a.cx.write_waiting_for_peercom peercom } :=
      steady_of_eq rfl rfl
    split
    next a' hpre =>
      obtain ⟨-, hread, hsteady⟩ := pre_write_frame hpre
      exact ⟨hread, hstart.trans hsteady⟩
    next a' hpre =>
      obtain ⟨-, hread, hsteady⟩ := pre_write_frame hpre
      obtain ⟨hread', hsteady'⟩ := write_out_frame cfg l a'
      exact ⟨hread'.trans hread, (hstart.trans hsteady).trans hsteady'⟩

theorem salvage_frame {a a' : AppHostCX} {ok : Bool} (h : a.salvage cfg stream = (ok, a')) :
    a'.write_side = a.write_side ∧ Steady a a' := by
  have hsteady := detect_ranges_steady cfg a
  unfold salvage at h
  cases hin : a.inside_detect_ranges cfg with
  | false =>
    rw [detect_ranges_outside hin] at h hsteady
    cases h
    exact ⟨rfl, hsteady⟩
  | true =>
    rw [detect_ranges_inside hin] at h
    simp only at h
    split at h
    next =>
      split at h
      next =>
        cases h
        exact ⟨rfl, Steady.rfl⟩
      next v hv =>
        cases h
        split
        · exact ⟨rfl, Steady.rfl⟩
        · exact ⟨rfl, steady_of_eq rfl rfl⟩
    next =>
      cases h
      exact ⟨rfl, Steady.rfl⟩

theorem peek_ahead_frame (cfg : config) (stream : Nat → UInt8) (i : reading) (a : AppHostCX) :
    (a.peek_ahead cfg stream i).write_side = a.write_side ∧
      (a.peek_ahead cfg stream i).exceeded = a.exceeded ∧
      (a.peek_ahead cfg stream i).mode_ = a.mode_ := by
  unfold peek_ahead
  simp only
  split_ifs <;> exact ⟨rfl, rfl, rfl⟩

theorem pre_read_frame {i : reading} {a a' : AppHostCX} {ok : Bool}
    (h : a.pre_read cfg stream i = (ok, a')) : a'.write_side = a.write_side ∧ Steady a a' := by
  unfold pre_read at h
  split at h
  next =>
    split at h
    next a₁ hsalvage =>
      cases h
      exact salvage_frame hsalvage
    next a₁ hsalvage =>
      cases h
      obtain ⟨hwrite, hsteady⟩ := salvage_frame hsalvage
      obtain ⟨hwrite', hex, hmode⟩ := peek_ahead_frame cfg stream i a₁
      exact ⟨hwrite'.trans hwrite, hsteady.trans (steady_of_eq hex hmode)⟩
  next =>
    cases h
    exact ⟨rfl, Steady.rfl⟩

theorem post_read_frame (cfg : config) (stream : Nat → UInt8) (a : AppHostCX) :
    (a.post_read cfg stream).write_side = a.write_side ∧ (a.post_read cfg stream).inp = a.inp ∧
      Steady a (a.post_read cfg stream) := by
  unfold post_read
  split
  next => exact ⟨rfl, rfl, Steady.rfl⟩
  next =>
    split
    next hmode =>
      split
      next a' hc =>
        obtain ⟨hwrite, hread, -, -⟩ := inside_detect_on_continue_spec a hc
        exact ⟨hwrite, congrArg Prod.fst hread, on_continue_steady hc⟩
      next a' hc =>
        obtain ⟨hwrite, hread, -, -⟩ := inside_detect_on_continue_spec a hc
        simp only
        refine ⟨?_, ?_, (on_continue_steady hc).trans ((steady_of_eq rfl rfl).trans
          (keeper_steady _ _))⟩
        · split_ifs
          · exact (continuous_mode_keeper_spec _ _).1.trans hwrite
          · exact hwrite
        · split_ifs
          · exact (congrArg Prod.fst (continuous_mode_keeper_spec _ _).2.1).trans
              (congrArg Prod.fst hread)
          · exact congrArg Prod.fst hread
    next => exact ⟨rfl, rfl, Steady.rfl⟩

theorem read_in_frame (cfg : config) (stream : Nat → UInt8) (i : reading) (a : AppHostCX) :
    (a.read_in cfg stream i).2.write_side = a.write_side ∧
      Steady a (a.read_in cfg stream i).2 := by
  unfold read_in
  split
  next => exact ⟨rfl, steady_of_eq rfl rfl⟩
  next =>
    simp only
    have hfinish : Steady a (if a.inp.auto_finish_ then { a with inp := a.inp.finish } else a) ∧
        write_side (if a.inp.auto_finish_ then { a with inp := a.inp.finish } else a) =
          a.write_side := by
      split
      · exact ⟨steady_of_eq rfl rfl, rfl⟩
      · exact ⟨Steady.rfl, rfl⟩
    generalize (if a.inp.auto_finish_ then { a with inp := a.inp.finish } else a) = b at hfinish ⊢
    obtain ⟨hsteady, hwrite⟩ := hfinish
    split_ifs
    · exact ⟨hwrite, hsteady.trans (steady_of_eq rfl rfl)⟩
    · exact ⟨hwrite, hsteady.trans (steady_of_eq rfl rfl)⟩
    · generalize (b.inp.put cfg i.resized (List.range' b.inp.meter_read_bytes
        (min i.cur_io_len b.inp.max_bytes_left).toNat)).after_read i.processed
        (List.range' b.inp.meter_read_bytes
          (min i.cur_io_len b.inp.max_bytes_left).toNat).length = inp
      have hopened : Steady b { b with cx := { b.cx with opening_ := false }, inp } :=
        steady_of_eq rfl rfl
      obtain ⟨hwrite', -, hsteady'⟩ := post_read_frame cfg stream
        { b with cx := { b.cx with opening_ := false }, inp }
      exact ⟨hwrite'.trans hwrite, hsteady.trans (hopened.trans
        (hsteady'.trans (steady_of_eq rfl rfl)))⟩

theorem read_frame (cfg : config) (stream : Nat → UInt8) (i : reading) (a : AppHostCX) :
    (a.read cfg stream i).2.write_side = a.write_side ∧ Steady a (a.read cfg stream i).2 := by
  unfold read
  simp only
  have hstart : Steady a { a with inp := a.inp.read_waiting_for_peercom i.peercom } :=
    steady_of_eq rfl rfl
  split
  next => exact ⟨rfl, hstart⟩
  next =>
    split
    next => exact ⟨rfl, hstart⟩
    next =>
      split
      next a' hpre =>
        obtain ⟨hwrite, hsteady⟩ := pre_read_frame hpre
        exact ⟨hwrite, hstart.trans hsteady⟩
      next a' hpre =>
        obtain ⟨hwrite, hsteady⟩ := pre_read_frame hpre
        obtain ⟨hwrite', hsteady'⟩ := read_in_frame cfg stream i a'
        exact ⟨hwrite'.trans hwrite, (hstart.trans hsteady).trans hsteady'⟩

end AppHostCX

/-! ## One step -/

/-- What is given to the connection comes to the end of its buffer. -/
theorem out_spec {cx : baseHostCX UInt8} {given : List UInt8} {call : hostcx.call UInt8}
    {s : Stream UInt8} (hwrite : ∀ peercom l, call ≠ .write peercom l)
    (h : hostcx.step baseHostCX.process_out { cx, given } call = some s) :
    ∃ b, s.given = given ++ b ∧ s.cx.writebuf_ = cx.writebuf_ ++ b ∧
      s.cx.meter_write_bytes = cx.meter_write_bytes := by
  cases call with
  | to_write_buffer fast_copy_start b =>
    cases h
    refine ⟨b, rfl, ?_, ?_⟩
    · simp only [baseHostCX.to_write_buffer]
      split
      next hfast => rw [hfast.1, List.nil_append]
      next => rfl
    · simp only [baseHostCX.to_write_buffer]
      split <;> rfl
  | to_write_string st =>
    cases h
    exact ⟨st, rfl, rfl, rfl⟩
  | to_write_ptr c l =>
    simp only [hostcx.step] at h
    split at h
    · cases h
    · cases h
      exact ⟨c.take l.toNat, rfl, rfl, rfl⟩
  | write peercom l => exact absurd rfl (hwrite peercom l)
  | write_waiting_for_peercom p =>
    cases h
    exact ⟨[], (List.append_nil _).symm, (List.append_nil _).symm, rfl⟩
  | close_after_write b =>
    cases h
    exact ⟨[], (List.append_nil _).symm, (List.append_nil _).symm, rfl⟩
  | opening b =>
    cases h
    exact ⟨[], (List.append_nil _).symm, (List.append_nil _).symm, rfl⟩

section
variable {cfg : config} {stream : Nat → UInt8} {c c' : Capture}

theorem step_write {peercom : Option Bool} {l : Int}
    (hs : step cfg stream c (.out (.write peercom l)) = some c') :
    (∀ t ∈ (c.app.write cfg peercom l).2.1, l ≤ t.data.length) ∧ l < 2 ^ 63 ∧
      c' = { c with
        app := (c.app.write cfg peercom l).2.2
        due_w := if c.app.due_in_write peercom l then c.given.length else c.due_w
        thrown := c.thrown || (c.app.write cfg peercom l).1.isNone } := by
  simp only [step] at hs
  split at hs
  · cases hs
  next hfits =>
    cases hs
    rw [not_or] at hfits
    refine ⟨fun t ht => ?_, Int.not_le.mp hfits.2, rfl⟩
    exact Int.not_lt.mp fun hlt => hfits.1 ⟨t, ht, hlt⟩

theorem step_out {call : hostcx.call UInt8} (hwrite : ∀ peercom l, call ≠ .write peercom l)
    (hs : step cfg stream c (.out call) = some c') :
    ∃ s b, c' = { c with app := { c.app with cx := s }, given := c.given ++ b } ∧
      s.writebuf_ = c.app.cx.writebuf_ ++ b ∧
      s.meter_write_bytes = c.app.cx.meter_write_bytes := by
  have hcall : step cfg stream c (.out call) =
      (hostcx.step baseHostCX.process_out { cx := c.app.cx, given := c.given } call).map fun s =>
        { c with app := { c.app with cx := s.cx }, given := s.given } := by
    cases call with
    | write peercom l => exact absurd rfl (hwrite peercom l)
    | _ => rfl
  rw [hcall, Option.map_eq_some_iff] at hs
  obtain ⟨s, hs, rfl⟩ := hs
  obtain ⟨b, hgiven, hbuf, hmeter⟩ := out_spec hwrite hs
  exact ⟨s.cx, b, by rw [hgiven], hbuf, hmeter⟩

end

end socle.apphostcx
