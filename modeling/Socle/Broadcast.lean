-- The proxy that gives what one side sends to all of the other side
-- (lrproxy.cpp, and read, write, to_write and finish of hostcx.cpp). A buffer
-- is the list of its bytes.
import Mathlib.Tactic
import Socle.Lib.Run

namespace socle.proxy

open lib.run

/-! ## Connections -/

/-- The buffers and the meters of a `baseHostCX`. No function of the code reads `sent`: it keeps what
was written into the socket. -/
structure baseHostCX where
  readbuf : List UInt8 := []
  writebuf : List UInt8 := []
  meter_read_bytes : Nat := 0
  meter_write_bytes : Nat := 0
  processed_in_ : Nat := 0
  processed_in_total_ : Nat := 0
  processed_out_ : Nat := 0
  processed_out_total_ : Nat := 0
  sent : List UInt8 := []
deriving DecidableEq, Repr

/-- `buffer::flush(bytes)`. -/
def flush (bytes : Nat) (b : List UInt8) : List UInt8 :=
  if bytes = 0 ∨ bytes ≥ b.length then [] else b.drop bytes

namespace baseHostCX

def process_in (cx : baseHostCX) : Nat :=
  cx.readbuf.length

def process_out (cx : baseHostCX) : Nat :=
  cx.writebuf.length

def finish (cx : baseHostCX) : baseHostCX :=
  if cx.readbuf.length ≥ cx.processed_in_ ∧ cx.processed_in_ > 0 then
    { cx with readbuf := flush cx.processed_in_ cx.readbuf }
  else if cx.readbuf = [] then cx
  -- best-effort recovery: flushing all
  else { cx with readbuf := flush cx.readbuf.length cx.readbuf }

def after_read (n : Nat) (cx : baseHostCX) : baseHostCX :=
  let cx := { cx with meter_read_bytes := cx.meter_read_bytes + n, processed_in_ := 0 }
  if cx.meter_read_bytes > cx.processed_in_total_ then
    { cx with processed_in_ := cx.process_in
              processed_in_total_ := cx.processed_in_total_ + cx.process_in }
  else cx

/-- `read`, of a socket that gives `chunk`. -/
def read (chunk : List UInt8) (cx : baseHostCX) : baseHostCX :=
  let cx := cx.finish
  { cx with readbuf := cx.readbuf ++ chunk }.after_read chunk.length

/-- The part of `write` that lets `process_out` see the buffer. -/
def see_out (cx : baseHostCX) : baseHostCX :=
  if cx.meter_write_bytes + cx.writebuf.length > cx.processed_out_total_ then
    { cx with processed_out_ := cx.process_out
              processed_out_total_ := cx.processed_out_total_ + cx.process_out }
  -- there are still data in buffer, but we have seen them all already
  else { cx with processed_out_ := cx.writebuf.length }

/-- `write`, into a socket that takes `l` bytes. It cannot take more than it is given. -/
def write (l : Int) (cx : baseHostCX) : Option baseHostCX :=
  let cx := cx.see_out
  if l > min cx.writebuf.length cx.processed_out_ then none
  else if l > 0 then
    some { cx with
      meter_write_bytes := cx.meter_write_bytes + l.toNat
      sent := cx.sent ++ cx.writebuf.take l.toNat
      writebuf := flush l.toNat cx.writebuf }
  else some cx

/-- `to_write(buffer& b)`: what is left of `b`, and the connection. -/
def to_write (fast_copy_start : Nat) (b : List UInt8) (cx : baseHostCX) : List UInt8 × baseHostCX :=
  if cx.writebuf = [] ∧ cx.meter_write_bytes > fast_copy_start then
    -- fastlane: the buffers are swapped, and `b` is emptied
    ([], { cx with writebuf := b })
  else (b, { cx with writebuf := cx.writebuf ++ b })

end baseHostCX

/-! ## The proxy -/

/-- The sockets and the permanent connections of one side. -/
structure side where
  sockets : List baseHostCX
  pc_cx : List baseHostCX

/-- The sides, and what was read from each. No function of the code reads `from_left` and
`from_right`. -/
structure SimpleLRProxy where
  left : side
  right : side
  from_left : List UInt8 := []
  from_right : List UInt8 := []

section
variable (fast_copy_start : Nat)

/-- The loop over the sockets of a side. All of them are served from the one buffer `b`. -/
def serve (b : List UInt8) : List baseHostCX → List UInt8 × List baseHostCX
  | [] => (b, [])
  | j :: rest =>
    let (b, j) := j.to_write fast_copy_start b
    let (b, rest) := serve b rest
    (b, j :: rest)

/-- `on_left_bytes` and `on_right_bytes`, with the other side. -/
def on_bytes (cx : baseHostCX) (other : side) : baseHostCX × side :=
  let (b, sockets) := serve fast_copy_start cx.readbuf other.sockets
  let (b, pc_cx) := serve fast_copy_start b other.pc_cx
  ({ cx with readbuf := b }.finish, { sockets, pc_cx })

def on_left_bytes (left : baseHostCX) (p : SimpleLRProxy) : baseHostCX × side :=
  on_bytes fast_copy_start left p.right

def on_right_bytes (right : baseHostCX) (p : SimpleLRProxy) : baseHostCX × side :=
  on_bytes fast_copy_start right p.left

/-! ## Runs -/

/-- The connection of a side: a socket, or a permanent connection. -/
inductive place
  | socket (k : Nat)
  | pc (k : Nat)

def side.get (s : side) : place → Option baseHostCX
  | .socket k => s.sockets[k]?
  | .pc k => s.pc_cx[k]?

def side.put (s : side) (cx : baseHostCX) : place → side
  | .socket k => { s with sockets := s.sockets.set k cx }
  | .pc k => { s with pc_cx := s.pc_cx.set k cx }

inductive event
  -- a chunk comes from a connection of one side
  | left_bytes (i : place) (chunk : List UInt8)
  | right_bytes (i : place) (chunk : List UInt8)
  -- a connection writes what its socket takes
  | write_left (i : place) (l : Int)
  | write_right (i : place) (l : Int)

/-- A read that gives nothing does not come to the proxy. -/
def step (p : SimpleLRProxy) : event → Option SimpleLRProxy
  | .left_bytes i chunk =>
    if chunk = [] then none
    else
      (p.left.get i).map fun cx =>
        let r := on_left_bytes fast_copy_start (cx.read chunk) p
        { p with left := p.left.put r.1 i, right := r.2, from_left := p.from_left ++ chunk }
  | .right_bytes i chunk =>
    if chunk = [] then none
    else
      (p.right.get i).map fun cx =>
        let r := on_right_bytes fast_copy_start (cx.read chunk) p
        { p with right := p.right.put r.1 i, left := r.2, from_right := p.from_right ++ chunk }
  | .write_left i l =>
    (p.left.get i).bind fun cx => (cx.write l).map fun cx => { p with left := p.left.put cx i }
  | .write_right i l =>
    (p.right.get i).bind fun cx => (cx.write l).map fun cx => { p with right := p.right.put cx i }

/-- A proxy with new connections. -/
def start (left_sockets left_pc_cx right_sockets right_pc_cx : Nat) : SimpleLRProxy where
  left := { sockets := .replicate left_sockets {}, pc_cx := .replicate left_pc_cx {} }
  right := { sockets := .replicate right_sockets {}, pc_cx := .replicate right_pc_cx {} }

/-! ## The law -/

/-- What a connection was given: the bytes that it has written, and those that it still has. -/
def baseHostCX.given (cx : baseHostCX) : List UInt8 :=
  cx.sent ++ cx.writebuf

/-- All connections of a side, in the order in which they are served. -/
def side.all (s : side) : List baseHostCX :=
  s.sockets ++ s.pc_cx

/-- Each connection was given what was read from the other side, in order. -/
structure Delivered (p : SimpleLRProxy) : Prop where
  right : ∀ j ∈ p.right.all, j.given = p.from_left
  left : ∀ j ∈ p.left.all, j.given = p.from_right

/-- The connection takes the fast lane. -/
def fastlane (j : baseHostCX) : Bool :=
  j.writebuf.isEmpty && j.meter_write_bytes > fast_copy_start

/-- Only the last one that is served may take the fast lane. -/
def LastOnly (js : List baseHostCX) : Prop :=
  ∀ j ∈ js.dropLast, fastlane fast_copy_start j = false

/-- No connection that is served from the bytes of `e` empties the buffer for the next one. -/
def Shares (p : SimpleLRProxy) : event → Prop
  | .left_bytes .. => LastOnly fast_copy_start p.right.all
  | .right_bytes .. => LastOnly fast_copy_start p.left.all
  | _ => True

/-! ## One connection -/

theorem flush_drop {n : Nat} {b : List UInt8} (hn : n ≠ 0) : flush n b = b.drop n := by
  unfold flush
  split
  next h =>
    rcases h with h | h
    · exact absurd h hn
    · rw [List.drop_eq_nil_of_le h]
  next => rfl

theorem flush_all (b : List UInt8) : flush b.length b = [] := by
  simp [flush]

theorem finish_same (cx : baseHostCX) :
    cx.finish.given = cx.given ∧ cx.finish.writebuf = cx.writebuf := by
  unfold baseHostCX.finish
  repeat' split
  all_goals exact ⟨rfl, rfl⟩

/-- The buffer of a connection that read `chunk` into an empty buffer. -/
theorem read_spec {cx : baseHostCX} (hempty : cx.readbuf = []) (chunk : List UInt8) :
    (cx.read chunk).readbuf = chunk ∧ (cx.read chunk).given = cx.given ∧
      ((cx.read chunk).processed_in_ = 0 ∨ (cx.read chunk).processed_in_ = chunk.length) := by
  have hfinish : cx.finish = cx := by
    unfold baseHostCX.finish
    rw [hempty]
    split
    next h =>
      simp only [List.length_nil] at h
      omega
    next => rfl
  unfold baseHostCX.read baseHostCX.after_read baseHostCX.process_in baseHostCX.given
  simp only [hfinish, hempty, List.nil_append]
  split
  · exact ⟨rfl, rfl, Or.inr rfl⟩
  · exact ⟨rfl, rfl, Or.inl rfl⟩

/-- `finish` empties the buffer, when it holds what was processed, or nothing of it was. -/
theorem finish_empties {cx : baseHostCX}
    (h : cx.readbuf = [] ∨ cx.processed_in_ = 0 ∨ cx.processed_in_ = cx.readbuf.length) :
    cx.finish.readbuf = [] := by
  unfold baseHostCX.finish
  by_cases hpart : cx.readbuf.length ≥ cx.processed_in_ ∧ cx.processed_in_ > 0
  · rw [if_pos hpart]
    have hall : cx.processed_in_ = cx.readbuf.length := by
      rcases h with h | h | h
      · rw [h, List.length_nil] at hpart
        omega
      · omega
      · exact h
    simp only [hall, flush_all]
  · rw [if_neg hpart]
    split
    next hnil => exact hnil
    next => exact flush_all cx.readbuf

/-- A write takes nothing from what the connection was given. -/
theorem write_spec {cx cx' : baseHostCX} {l : Int} (h : cx.write l = some cx') :
    cx'.given = cx.given ∧ cx'.readbuf = cx.readbuf := by
  have hsee : cx.see_out.writebuf = cx.writebuf ∧ cx.see_out.sent = cx.sent ∧
      cx.see_out.readbuf = cx.readbuf := by
    unfold baseHostCX.see_out
    split
    · exact ⟨rfl, rfl, rfl⟩
    · exact ⟨rfl, rfl, rfl⟩
  obtain ⟨hwritebuf, hsent, hreadbuf⟩ := hsee
  unfold baseHostCX.write at h
  simp only [hwritebuf, hsent] at h
  split at h
  next => cases h
  next hle =>
    split at h
    next hpos =>
      cases h
      refine ⟨?_, hreadbuf⟩
      unfold baseHostCX.given
      simp only
      rw [flush_drop (by omega), List.append_assoc, List.take_append_drop]
    next =>
      cases h
      refine ⟨?_, hreadbuf⟩
      unfold baseHostCX.given
      rw [hwritebuf, hsent]

/-! ## One loop -/

theorem to_write_given (b : List UInt8) (j : baseHostCX) :
    (j.to_write fast_copy_start b).2.given = j.given ++ b ∧
      (j.to_write fast_copy_start b).2.readbuf = j.readbuf := by
  unfold baseHostCX.to_write baseHostCX.given
  split
  next h => simp [h.1]
  next => simp

theorem to_write_left (b : List UInt8) (j : baseHostCX) :
    (j.to_write fast_copy_start b).1 = if fastlane fast_copy_start j then [] else b := by
  unfold baseHostCX.to_write fastlane
  simp only [Bool.and_eq_true, List.isEmpty_iff, decide_eq_true_eq]
  split
  · rfl
  · rfl

theorem serve_cons (b : List UInt8) (j : baseHostCX) (rest : List baseHostCX) :
    (serve fast_copy_start b (j :: rest)).2 =
      (j.to_write fast_copy_start b).2 ::
        (serve fast_copy_start (j.to_write fast_copy_start b).1 rest).2 := rfl

theorem serve_append (b : List UInt8) (js ks : List baseHostCX) :
    serve fast_copy_start b (js ++ ks) =
      ((serve fast_copy_start (serve fast_copy_start b js).1 ks).1,
        (serve fast_copy_start b js).2 ++ (serve fast_copy_start (serve fast_copy_start b js).1 ks).2) := by
  induction js generalizing b with
  | nil => rfl
  | cons j rest ih =>
    simp only [List.cons_append, serve]
    rw [ih]

theorem serve_readbuf (b : List UInt8) (js : List baseHostCX) :
    ∀ j' ∈ (serve fast_copy_start b js).2, ∃ j ∈ js, j'.readbuf = j.readbuf := by
  induction js generalizing b with
  | nil => exact fun j' h => by cases h
  | cons j rest ih =>
    intro j' h
    rw [serve_cons] at h
    rcases List.mem_cons.mp h with rfl | h
    · exact ⟨j, List.mem_cons_self, (to_write_given fast_copy_start b j).2⟩
    · obtain ⟨k, hk, heq⟩ := ih _ j' h
      exact ⟨k, List.mem_cons_of_mem _ hk, heq⟩

theorem last_only_cons {j k : baseHostCX} {rest : List baseHostCX} :
    LastOnly fast_copy_start (j :: k :: rest) ↔
      fastlane fast_copy_start j = false ∧ LastOnly fast_copy_start (k :: rest) := by
  simp [LastOnly]

/-- When only the last one may take the fast lane, each one gets the bytes. -/
theorem serve_shares (b : List UInt8) {js : List baseHostCX} (h : LastOnly fast_copy_start js) :
    ∀ j' ∈ (serve fast_copy_start b js).2, ∃ j ∈ js, j'.given = j.given ++ b := by
  induction js with
  | nil => exact fun j' h => by cases h
  | cons j rest ih =>
    intro j' hj
    rw [serve_cons] at hj
    rcases List.mem_cons.mp hj with rfl | hj
    · exact ⟨j, List.mem_cons_self, (to_write_given fast_copy_start b j).1⟩
    · cases rest with
      | nil => cases hj
      | cons k rest =>
        obtain ⟨hslow, hrest⟩ := (last_only_cons fast_copy_start).mp h
        have hsame : (j.to_write fast_copy_start b).1 = b := by
          rw [to_write_left, hslow]
          rfl
        rw [hsame] at hj
        obtain ⟨i, hi, heq⟩ := ih hrest j' hj
        exact ⟨i, List.mem_cons_of_mem _ hi, heq⟩

/-- Otherwise one gets nothing. -/
theorem serve_starves (b : List UInt8) {js : List baseHostCX} (h : ¬ LastOnly fast_copy_start js) :
    ∃ j' ∈ (serve fast_copy_start b js).2, ∃ j ∈ js, j'.given = j.given := by
  induction js with
  | nil => exact absurd (fun j hj => by cases hj) h
  | cons j rest ih =>
    cases rest with
    | nil => exact absurd (fun j hj => by cases hj) h
    | cons k rest =>
      cases hfast : fastlane fast_copy_start j with
      | true =>
        -- the next one is served from the emptied buffer
        have hempty : (j.to_write fast_copy_start b).1 = [] := by
          rw [to_write_left, hfast]
          rfl
        refine ⟨(k.to_write fast_copy_start []).2, ?_, k, by simp, ?_⟩
        · rw [serve_cons, hempty, serve_cons]
          exact List.mem_cons_of_mem _ List.mem_cons_self
        · rw [(to_write_given fast_copy_start [] k).1, List.append_nil]
      | false =>
        have hsame : (j.to_write fast_copy_start b).1 = b := by
          rw [to_write_left, hfast]
          rfl
        have hrest : ¬ LastOnly fast_copy_start (k :: rest) :=
          fun hr => h ((last_only_cons fast_copy_start).mpr ⟨hfast, hr⟩)
        obtain ⟨j', hj', i, hi, heq⟩ := ih hrest
        refine ⟨j', ?_, i, List.mem_cons_of_mem _ hi, heq⟩
        rw [serve_cons, hsame]
        exact List.mem_cons_of_mem _ hj'

/-- The buffer is emptied by the fast lane, or it is as it was. -/
theorem serve_left (b : List UInt8) (js : List baseHostCX) :
    (serve fast_copy_start b js).1 = [] ∨ (serve fast_copy_start b js).1 = b := by
  induction js generalizing b with
  | nil => exact Or.inr rfl
  | cons j rest ih =>
    have hleft := to_write_left fast_copy_start b j
    rcases ih (j.to_write fast_copy_start b).1 with h | h
    · exact Or.inl h
    · split at hleft
      next => exact Or.inl (h.trans hleft)
      next => exact Or.inr (h.trans hleft)

/-! ## One side -/

/-- Each connection of the side was given `bs`, and has no bytes to read. -/
def side.Served (s : side) (bs : List UInt8) : Prop :=
  ∀ j ∈ s.all, j.given = bs ∧ j.readbuf = []

theorem get_mem {s : side} {i : place} {cx : baseHostCX} (h : s.get i = some cx) : cx ∈ s.all := by
  unfold side.all
  cases i with
  | socket k => exact List.mem_append_left _ (List.mem_of_getElem? h)
  | pc k => exact List.mem_append_right _ (List.mem_of_getElem? h)

theorem mem_put {s : side} {i : place} {cx j : baseHostCX} (h : j ∈ (s.put cx i).all) :
    j = cx ∨ j ∈ s.all := by
  unfold side.all at h ⊢
  cases i with
  | socket k =>
    rcases List.mem_append.mp h with h | h
    · exact (List.mem_or_eq_of_mem_set h).symm.imp_right (List.mem_append_left _)
    · exact Or.inr (List.mem_append_right _ h)
  | pc k =>
    rcases List.mem_append.mp h with h | h
    · exact Or.inr (List.mem_append_left _ h)
    · exact (List.mem_or_eq_of_mem_set h).symm.imp_right (List.mem_append_right _)

theorem put_served {s : side} {bs : List UInt8} {cx : baseHostCX} (hs : s.Served bs)
    (hgiven : cx.given = bs) (hempty : cx.readbuf = []) (i : place) : (s.put cx i).Served bs := by
  intro j hj
  rcases mem_put hj with rfl | hj
  · exact ⟨hgiven, hempty⟩
  · exact hs j hj

theorem on_bytes_all (cx : baseHostCX) (other : side) :
    (on_bytes fast_copy_start cx other).2.all =
      (serve fast_copy_start cx.readbuf other.all).2 := by
  unfold side.all
  rw [serve_append]
  rfl

/-- The side that a chunk comes from. -/
theorem source_served {s : side} {bs : List UInt8} {i : place} {cx : baseHostCX}
    (hs : s.Served bs) (hget : s.get i = some cx) (chunk : List UInt8) (other : side) :
    (s.put (on_bytes fast_copy_start (cx.read chunk) other).1 i).Served bs := by
  obtain ⟨hgiven, hempty⟩ := hs cx (get_mem hget)
  obtain ⟨hchunk, hsame, hprocessed⟩ := read_spec hempty chunk
  apply put_served hs
  · exact (finish_same _).1.trans (hsame.trans hgiven)
  · apply finish_empties
    -- what the loops left of the chunk
    rcases serve_left fast_copy_start chunk (other.sockets ++ other.pc_cx) with h | h
    · rw [serve_append] at h
      refine Or.inl ?_
      rw [hchunk]
      exact h
    · rw [serve_append] at h
      refine Or.inr (hprocessed.imp_right fun hlen => hlen.trans ?_)
      rw [hchunk]
      exact (congrArg List.length h).symm

/-- The side that gets the chunk. -/
theorem other_served {other : side} {bs : List UInt8} {cx : baseHostCX} (hs : other.Served bs)
    (hempty : cx.readbuf = []) (hlast : LastOnly fast_copy_start other.all) (chunk : List UInt8) :
    (on_bytes fast_copy_start (cx.read chunk) other).2.Served (bs ++ chunk) := by
  intro j' hj
  rw [on_bytes_all, (read_spec hempty chunk).1] at hj
  constructor
  · obtain ⟨j, hmem, hgiven⟩ := serve_shares fast_copy_start chunk hlast j' hj
    rw [hgiven, (hs j hmem).1]
  · obtain ⟨j, hmem, hsame⟩ := serve_readbuf fast_copy_start chunk other.all j' hj
    rw [hsame, (hs j hmem).2]

theorem other_starves {other : side} {bs : List UInt8} {cx : baseHostCX} (hs : other.Served bs)
    (hempty : cx.readbuf = []) (hlast : ¬ LastOnly fast_copy_start other.all)
    {chunk : List UInt8} (hchunk : chunk ≠ []) :
    ¬ ∀ j ∈ (on_bytes fast_copy_start (cx.read chunk) other).2.all, j.given = bs ++ chunk := by
  intro h
  rw [on_bytes_all, (read_spec hempty chunk).1] at h
  obtain ⟨j', hj', j, hj, hgiven⟩ := serve_starves fast_copy_start chunk hlast
  have hsame : bs = bs ++ chunk := (hs j hj).1.symm.trans (hgiven.symm.trans (h j' hj'))
  exact hchunk (List.self_eq_append_right.mp hsame)

theorem write_served {s : side} {bs : List UInt8} {i : place} {cx cx' : baseHostCX} {l : Int}
    (hs : s.Served bs) (hget : s.get i = some cx) (hwrite : cx.write l = some cx') :
    (s.put cx' i).Served bs := by
  obtain ⟨hgiven, hempty⟩ := hs cx (get_mem hget)
  obtain ⟨hsame, hread⟩ := write_spec hwrite
  exact put_served hs (hsame.trans hgiven) (hread.trans hempty) i

/-! ## Each run -/

/-- Both sides are served, and wait for the next chunk. -/
structure Idle (p : SimpleLRProxy) : Prop where
  right : p.right.Served p.from_left
  left : p.left.Served p.from_right

theorem Idle.delivered {p : SimpleLRProxy} (h : Idle p) : Delivered p where
  right := fun j hj => (h.right j hj).1
  left := fun j hj => (h.left j hj).1

theorem start_idle (a b c d : Nat) : Idle (start a b c d) := by
  have hfresh : ∀ m n : Nat,
      side.Served { sockets := .replicate m {}, pc_cx := .replicate n {} } [] := by
    intro m n j hj
    rcases List.mem_append.mp hj with h | h
    · rw [List.eq_of_mem_replicate h]
      exact ⟨rfl, rfl⟩
    · rw [List.eq_of_mem_replicate h]
      exact ⟨rfl, rfl⟩
  exact ⟨hfresh c d, hfresh a b⟩

/-- What an event does. -/
theorem step_cases {p p' : SimpleLRProxy} {e : event} (h : step fast_copy_start p e = some p') :
    (∃ i chunk cx, e = .left_bytes i chunk ∧ chunk ≠ [] ∧ p.left.get i = some cx ∧
      p' = { p with
        left := p.left.put (on_bytes fast_copy_start (cx.read chunk) p.right).1 i
        right := (on_bytes fast_copy_start (cx.read chunk) p.right).2
        from_left := p.from_left ++ chunk }) ∨
    (∃ i chunk cx, e = .right_bytes i chunk ∧ chunk ≠ [] ∧ p.right.get i = some cx ∧
      p' = { p with
        right := p.right.put (on_bytes fast_copy_start (cx.read chunk) p.left).1 i
        left := (on_bytes fast_copy_start (cx.read chunk) p.left).2
        from_right := p.from_right ++ chunk }) ∨
    (∃ i l cx cx', e = .write_left i l ∧ p.left.get i = some cx ∧ cx.write l = some cx' ∧
      p' = { p with left := p.left.put cx' i }) ∨
    (∃ i l cx cx', e = .write_right i l ∧ p.right.get i = some cx ∧ cx.write l = some cx' ∧
      p' = { p with right := p.right.put cx' i }) := by
  cases e with
  | left_bytes i chunk =>
    simp only [step] at h
    split at h
    next => cases h
    next hchunk =>
      obtain ⟨cx, hget, rfl⟩ := Option.map_eq_some_iff.mp h
      exact Or.inl ⟨i, chunk, cx, rfl, hchunk, hget, rfl⟩
  | right_bytes i chunk =>
    simp only [step] at h
    split at h
    next => cases h
    next hchunk =>
      obtain ⟨cx, hget, rfl⟩ := Option.map_eq_some_iff.mp h
      exact Or.inr (Or.inl ⟨i, chunk, cx, rfl, hchunk, hget, rfl⟩)
  | write_left i l =>
    obtain ⟨cx, hget, h⟩ := Option.bind_eq_some_iff.mp h
    obtain ⟨cx', hwrite, rfl⟩ := Option.map_eq_some_iff.mp h
    exact Or.inr (Or.inr (Or.inl ⟨i, l, cx, cx', rfl, hget, hwrite, rfl⟩))
  | write_right i l =>
    obtain ⟨cx, hget, h⟩ := Option.bind_eq_some_iff.mp h
    obtain ⟨cx', hwrite, rfl⟩ := Option.map_eq_some_iff.mp h
    exact Or.inr (Or.inr (Or.inr ⟨i, l, cx, cx', rfl, hget, hwrite, rfl⟩))

theorem step_idle {p p' : SimpleLRProxy} {e : event} (hp : Idle p) (hc : Shares fast_copy_start p e)
    (h : step fast_copy_start p e = some p') : Idle p' := by
  rcases step_cases fast_copy_start h with ⟨i, chunk, cx, rfl, -, hget, rfl⟩ |
    ⟨i, chunk, cx, rfl, -, hget, rfl⟩ | ⟨i, l, cx, cx', rfl, hget, hwrite, rfl⟩ |
    ⟨i, l, cx, cx', rfl, hget, hwrite, rfl⟩
  · have hempty : cx.readbuf = [] := (hp.left cx (get_mem hget)).2
    exact ⟨other_served fast_copy_start hp.right hempty hc chunk,
      source_served fast_copy_start hp.left hget chunk p.right⟩
  · have hempty : cx.readbuf = [] := (hp.right cx (get_mem hget)).2
    exact ⟨source_served fast_copy_start hp.right hget chunk p.left,
      other_served fast_copy_start hp.left hempty hc chunk⟩
  · exact ⟨hp.right, write_served hp.left hget hwrite⟩
  · exact ⟨write_served hp.right hget hwrite, hp.left⟩

theorem step_starves {p p' : SimpleLRProxy} {e : event} (hp : Idle p)
    (hc : ¬ Shares fast_copy_start p e) (h : step fast_copy_start p e = some p') :
    ¬ Delivered p' := by
  rcases step_cases fast_copy_start h with ⟨i, chunk, cx, rfl, hchunk, hget, rfl⟩ |
    ⟨i, chunk, cx, rfl, hchunk, hget, rfl⟩ | ⟨i, l, cx, cx', rfl, hget, hwrite, rfl⟩ |
    ⟨i, l, cx, cx', rfl, hget, hwrite, rfl⟩
  · have hempty : cx.readbuf = [] := (hp.left cx (get_mem hget)).2
    exact fun hd => other_starves fast_copy_start hp.right hempty hc hchunk hd.right
  · have hempty : cx.readbuf = [] := (hp.right cx (get_mem hget)).2
    exact fun hd => other_starves fast_copy_start hp.left hempty hc hchunk hd.left
  · exact absurd trivial hc
  · exact absurd trivial hc

/-- The proxy delivers in each state of a run when, and only when, in each broadcast of the run
only the last connection that is served takes the fast lane. -/
theorem all_are_given_what_was_read (left_sockets left_pc_cx right_sockets right_pc_cx : Nat)
    (events : List event) :
    Always (step fast_copy_start) Delivered
        (start left_sockets left_pc_cx right_sockets right_pc_cx) events ↔
      Meets (step fast_copy_start) (Shares fast_copy_start)
        (start left_sockets left_pc_cx right_sockets right_pc_cx) events :=
  always_iff_meets (fun _ h => h.delivered) (fun _ _ _ => step_idle fast_copy_start)
    (fun _ _ _ => step_starves fast_copy_start) (start_idle _ _ _ _) events

end

/-- The value at start. -/
def params_t.fast_copy_start : Nat :=
  20 * 1024

/-- One left and two right sockets. The first right socket writes more than the threshold, and then
one more byte comes. -/
def past_threshold (fast_copy_start : Nat) : List event :=
  [.left_bytes (.socket 0) (.replicate (fast_copy_start + 1) 0),
    .write_right (.socket 0) (fast_copy_start + 1),
    .left_bytes (.socket 0) [1]]

/-- The second right socket does not get the last byte. -/
theorem not_delivered_past_threshold (f : Nat) :
    ¬ Always (step f) Delivered (start 1 0 2 0) (past_threshold f) := by
  intro halways
  have hlen : (List.replicate (f + 1) (0 : UInt8)).length = f + 1 := List.length_replicate
  unfold past_threshold at halways
  generalize List.replicate (f + 1) (0 : UInt8) = data at hlen halways
  have hne : data ≠ [] := by
    rintro rfl
    cases hlen
  -- both right sockets get the first bytes
  have hfirst : ∃ cx, step f (start 1 0 2 0) (.left_bytes (.socket 0) data) =
      some { left := { sockets := [cx], pc_cx := [] }
             right := { sockets := [{ writebuf := data }, { writebuf := data }], pc_cx := [] }
             from_left := data } := by
    simp [step, hne, start, side.get, side.put, on_left_bytes, on_bytes, serve,
      baseHostCX.to_write, baseHostCX.read, baseHostCX.finish, baseHostCX.after_read,
      baseHostCX.process_in]
    split <;> simp
  obtain ⟨cx, hfirst⟩ := hfirst
  -- the first one writes them
  have hwritten : ∃ j : baseHostCX, ({ writebuf := data } : baseHostCX).write (f + 1) = some j ∧
      j.writebuf = [] ∧ j.meter_write_bytes = f + 1 := by
    simp [baseHostCX.write, baseHostCX.see_out, baseHostCX.process_out, hlen, flush]
  obtain ⟨j, hwrite, hempty, hmeter⟩ := hwritten
  have hsecond : step f
      { left := { sockets := [cx], pc_cx := [] }
        right := { sockets := [{ writebuf := data }, { writebuf := data }], pc_cx := [] }
        from_left := data } (.write_right (.socket 0) (f + 1)) =
      some { left := { sockets := [cx], pc_cx := [] }
             right := { sockets := [j, { writebuf := data }], pc_cx := [] }
             from_left := data } := by
    simp [step, side.get, side.put, hwrite]
  -- and takes the last byte alone
  have hthird : ∃ left j', step f
      { left := { sockets := [cx], pc_cx := [] }
        right := { sockets := [j, { writebuf := data }], pc_cx := [] }
        from_left := data } (.left_bytes (.socket 0) [1]) =
      some { left
             right := { sockets := [j', { writebuf := data }], pc_cx := [] }
             from_left := data ++ [1] } := by
    simp [step, side.get, side.put, on_left_bytes, on_bytes, serve, baseHostCX.to_write, hempty,
      hmeter]
  obtain ⟨left, j', hthird⟩ := hthird
  have hend := always_here (((halways.2 _ hfirst).2 _ hsecond).2 _ hthird)
  have hstarved := hend.right { writebuf := data } (by simp [side.all])
  have hlen' := congrArg List.length hstarved
  simp [baseHostCX.given] at hlen'

/-- So not every run gives each connection what was read. -/
theorem the_second_starves :
    ¬ ∀ (left_sockets left_pc_cx right_sockets right_pc_cx : Nat) (events : List event),
      Always (step params_t.fast_copy_start) Delivered
        (start left_sockets left_pc_cx right_sockets right_pc_cx) events := by
  intro hall
  apply not_delivered_past_threshold params_t.fast_copy_start
  exact hall 1 0 2 0 _

end socle.proxy
