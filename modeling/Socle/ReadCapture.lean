-- What an inspected connection captures of the stream that it reads in mode
-- PRE. It peeks ahead of its reads, so the bytes that a read leaves are seen
-- again.
import Socle.AppHostCX

namespace socle.apphostcx

open lib.run hostcx flows

/-! ## The law -/

/-- The flow was given the bytes of the stream in order, as many as the counter says, and those that
are due. -/
structure InOrder (c : Capture) : Prop where
  bytes : c.app.captured_r = List.range c.app.peek_read_counter
  due : c.due_r ≤ c.app.peek_read_counter

/-- The law, while detection ranges are not exceeded. -/
def ReadsCaptured (c : Capture) : Prop :=
  c.app.exceeded = false → InOrder c

/-- When a `read` comes to the hook inside the ranges, the bytes that were not captured are still in
the read buffer, and when something can be peeked, there is none that was peeked and not read. -/
def Caught (cfg : config) (c : Capture) : operation → Prop
  | .read i => c.app.exceeded = false → c.app.reads i = true →
    c.app.inside_detect_ranges cfg = true →
    c.app.inp.meter_read_bytes ≤ c.app.peek_read_counter + c.app.inp.readbuf_.length ∧
      (c.app.inp.meter_read_bytes < cfg.max_detect_bytes.toNat →
        0 < i.peek_all →
        c.app.peek_read_counter ≤ c.app.inp.meter_read_bytes)
  | _ => True

/-! ## The read buffer -/

/-- The buffer holds the last bytes that were read. -/
structure Newest (s : readSide) : Prop where
  le : s.readbuf_.length ≤ s.meter_read_bytes
  bytes : s.readbuf_ = List.range' (s.meter_read_bytes - s.readbuf_.length) s.readbuf_.length

namespace Newest

variable {s s' : readSide}

theorem of_eq (h : Newest s) (hbuf : s'.readbuf_ = s.readbuf_)
    (hmeter : s'.meter_read_bytes = s.meter_read_bytes) : Newest s' := by
  refine ⟨?_, ?_⟩
  · rw [hbuf, hmeter]
    exact h.le
  · rw [hbuf, hmeter]
    exact h.bytes

/-- The end of the buffer. -/
theorem drop (h : Newest s) {n : Nat} (hn : n ≤ s.readbuf_.length) :
    s.readbuf_.drop n =
      List.range' (s.meter_read_bytes - (s.readbuf_.length - n)) (s.readbuf_.length - n) := by
  have hle := h.le
  have hstart : s.meter_read_bytes - s.readbuf_.length + n * 1 =
      s.meter_read_bytes - (s.readbuf_.length - n) := by omega
  rw [← hstart, ← List.drop_range', ← h.bytes]

theorem flush (h : Newest s) (n : Nat) : Newest { s with readbuf_ := flush n s.readbuf_ } := by
  unfold hostcx.flush
  split
  next => exact ⟨Nat.zero_le _, rfl⟩
  next hn =>
    have hle := h.le
    refine ⟨?_, ?_⟩
    · simp only [List.length_drop]
      omega
    · simp only [List.length_drop]
      exact h.drop (by omega)

theorem finish (h : Newest s) : Newest s.finish := by
  unfold readSide.finish
  split
  next => exact h.flush _
  next =>
    split
    next => exact h
    next => exact h.flush _

theorem put (h : Newest s) (cfg : config) (resized : Option chunks) (n processed : Nat) :
    Newest ((s.put cfg resized (List.range' s.meter_read_bytes n)).after_read processed n) := by
  have hle := h.le
  have hput : (s.put cfg resized (List.range' s.meter_read_bytes n)).readbuf_ =
      s.readbuf_ ++ List.range' s.meter_read_bytes n ∧
      (s.put cfg resized (List.range' s.meter_read_bytes n)).meter_read_bytes =
        s.meter_read_bytes := by
    simp only [readSide.put, readSide.grow_buffer]
    split_ifs
    · exact ⟨rfl, rfl⟩
    · cases resized <;> exact ⟨rfl, rfl⟩
    · exact ⟨rfl, rfl⟩
    · exact ⟨rfl, rfl⟩
  generalize s.put cfg resized (List.range' s.meter_read_bytes n) = r at hput ⊢
  obtain ⟨hbuf, hmeter⟩ := hput
  have hafter : (r.after_read processed n).readbuf_ = r.readbuf_ ∧
      (r.after_read processed n).meter_read_bytes = r.meter_read_bytes + n := by
    simp only [readSide.after_read]
    split_ifs <;> exact ⟨rfl, rfl⟩
  obtain ⟨hbuf', hmeter'⟩ := hafter
  have hlength : (s.readbuf_ ++ List.range' s.meter_read_bytes n).length =
      s.readbuf_.length + n := by
    rw [List.length_append, List.length_range']
  refine ⟨?_, ?_⟩
  · rw [hbuf', hmeter', hbuf, hmeter, hlength]
    omega
  · rw [hbuf', hmeter', hbuf, hmeter, hlength]
    have hstart : s.meter_read_bytes + n - (s.readbuf_.length + n) =
        s.meter_read_bytes - s.readbuf_.length := by omega
    have hmiddle : s.meter_read_bytes =
        s.meter_read_bytes - s.readbuf_.length + s.readbuf_.length := by omega
    rw [hstart, ← List.range'_append_1, ← h.bytes, ← hmiddle]

end Newest

/-! ## One read -/

namespace AppHostCX

variable {cfg : config} {stream : Nat → UInt8} {a a' : AppHostCX} {i : reading}

theorem range_append (n k : Nat) : List.range n ++ List.range' n k = List.range (n + k) := by
  have hsplit := List.range'_append_1 (s := 0) (m := n) (n := k)
  rwa [Nat.zero_add, ← List.range_eq_range', ← List.range_eq_range'] at hsplit

/-- What was read and not captured is still in the buffer. -/
theorem salvage_spec (cfg : config) (stream : Nat → UInt8) (hnewest : Newest a.inp)
    (hin : a.inside_detect_ranges cfg = true)
    (hbytes : a.captured_r = List.range a.peek_read_counter)
    (hkept : a.inp.meter_read_bytes ≤ a.peek_read_counter + a.inp.readbuf_.length) :
    ∃ a', a.salvage cfg stream = (true, a') ∧ a'.inp = a.inp ∧ a'.mode_ = a.mode_ ∧
      a'.exceeded = a.exceeded ∧
      a'.peek_read_counter = max a.peek_read_counter a.inp.meter_read_bytes ∧
      a'.captured_r = List.range a'.peek_read_counter := by
  unfold salvage
  rw [detect_ranges_inside hin]
  simp only
  by_cases hbehind : a.peek_read_counter < a.inp.meter_read_bytes
  · rw [if_pos hbehind]
    have hle := hnewest.le
    have hw : size_sub a.inp.readbuf_.length (a.inp.meter_read_bytes - a.peek_read_counter) =
        a.inp.readbuf_.length - (a.inp.meter_read_bytes - a.peek_read_counter) :=
      if_pos (by omega)
    have hview : view (a.inp.readbuf_.length - (a.inp.meter_read_bytes - a.peek_read_counter))
        (a.inp.meter_read_bytes - a.peek_read_counter) a.inp.readbuf_ =
          some (List.range' a.peek_read_counter
            (a.inp.meter_read_bytes - a.peek_read_counter)) := by
      unfold view
      rw [if_pos (by omega), if_pos (by omega), hnewest.drop (by omega)]
      have hcount : a.inp.readbuf_.length -
          (a.inp.readbuf_.length - (a.inp.meter_read_bytes - a.peek_read_counter)) =
            a.inp.meter_read_bytes - a.peek_read_counter := by omega
      have hstart : a.inp.meter_read_bytes - (a.inp.meter_read_bytes - a.peek_read_counter) =
          a.peek_read_counter := by omega
      rw [hcount, hstart, List.take_range'_of_length_le (Nat.le_refl _)]
    rw [hw, hview]
    have hsome : List.range' a.peek_read_counter
        (a.inp.meter_read_bytes - a.peek_read_counter) ≠ [] := by
      intro hnil
      have hlength := congrArg List.length hnil
      rw [List.length_range', List.length_nil] at hlength
      omega
    simp only [if_neg hsome]
    refine ⟨_, rfl, rfl, rfl, rfl, ?_, ?_⟩
    · simp only [List.length_range']
      omega
    · simp only [append_r, hbytes, range_append, List.length_range']
  · rw [if_neg hbehind]
    exact ⟨a, rfl, rfl, rfl, rfl, (Nat.max_eq_left (Nat.not_lt.mp hbehind)).symm, hbytes⟩

/-- When the buffer does not hold it any more, the view throws. -/
theorem salvage_throws (cfg : config) (stream : Nat → UInt8)
    (hin : a.inside_detect_ranges cfg = true)
    (hlost : a.peek_read_counter + a.inp.readbuf_.length < a.inp.meter_read_bytes) :
    a.salvage cfg stream = (false, a) := by
  have hmeter : a.inp.meter_read_bytes < 2 ^ 32 := by
    obtain ⟨hmax, -⟩ := Bool.and_eq_true_iff.mp hin
    have hle : a.cx.meter_write_bytes + a.inp.meter_read_bytes ≤ cfg.max_detect_bytes.toNat :=
      of_decide_eq_true hmax
    have hsize := cfg.max_detect_bytes.toNat_lt
    omega
  unfold salvage
  rw [detect_ranges_inside hin]
  simp only
  rw [if_pos (by omega)]
  have hw : a.inp.readbuf_.length ≤
      size_sub a.inp.readbuf_.length (a.inp.meter_read_bytes - a.peek_read_counter) := by
    rw [size_sub, if_neg (by omega)]
    omega
  have hview : view (size_sub a.inp.readbuf_.length (a.inp.meter_read_bytes - a.peek_read_counter))
      (a.inp.meter_read_bytes - a.peek_read_counter) a.inp.readbuf_ = none :=
    if_neg (Nat.not_lt.mpr hw)
  rw [hview]

theorem salvage_outside (hin : a.inside_detect_ranges cfg = false) {ok : Bool}
    (h : a.salvage cfg stream = (ok, a')) : a'.exceeded = true := by
  unfold salvage at h
  rw [detect_ranges_outside hin] at h
  cases h
  rfl

/-- How many bytes are peeked. -/
def peeked (cfg : config) (i : reading) (a : AppHostCX) : Nat :=
  if a.inp.meter_read_bytes < cfg.max_detect_bytes.toNat then i.peek_all.toNat else 0

theorem peek_ahead_spec (cfg : config) (stream : Nat → UInt8) (i : reading) (a : AppHostCX) :
    (a.peek_ahead cfg stream i).peek_read_counter = a.peek_read_counter + a.peeked cfg i ∧
      (a.peek_ahead cfg stream i).captured_r =
        a.captured_r ++ List.range' a.inp.meter_read_bytes (a.peeked cfg i) ∧
      (a.peek_ahead cfg stream i).inp.readbuf_ = a.inp.readbuf_ ∧
      (a.peek_ahead cfg stream i).inp.meter_read_bytes = a.inp.meter_read_bytes := by
  unfold peek_ahead peeked
  simp only
  split
  next =>
    split
    next hneg =>
      have hzero : i.peek_all.toNat = 0 := by omega
      rw [hzero, List.range'_zero, List.append_nil]
      exact ⟨rfl, rfl, rfl, rfl⟩
    next =>
      split
      next => exact ⟨rfl, rfl, rfl, rfl⟩
      next hpos =>
        have hzero : i.peek_all.toNat = 0 := by omega
        rw [hzero, List.range'_zero, List.append_nil]
        exact ⟨rfl, rfl, rfl, rfl⟩
  next =>
    rw [List.range'_zero, List.append_nil]
    exact ⟨rfl, rfl, rfl, rfl⟩

theorem post_read_of_pre (h : a.mode_ = .PRE) (cx : baseHostCX UInt8) (inp : readSide) :
    post_read cfg stream { a with cx, inp } = { a with cx, inp } := by
  unfold post_read
  split
  · rfl
  · exact if_neg (by simp only [h]; decide)

/-- In mode `PRE` nothing is captured after the hook. -/
theorem read_in_spec (cfg : config) (stream : Nat → UInt8) (i : reading) (hmode : a.mode_ = .PRE)
    (hnewest : Newest a.inp) :
    (a.read_in cfg stream i).2.peek_read_counter = a.peek_read_counter ∧
      (a.read_in cfg stream i).2.captured_r = a.captured_r ∧
      (a.read_in cfg stream i).2.mode_ = .PRE ∧
      (a.read_in cfg stream i).2.exceeded = a.exceeded ∧ Newest (a.read_in cfg stream i).2.inp := by
  unfold read_in
  split
  next => exact ⟨rfl, rfl, hmode, rfl, hnewest.of_eq rfl rfl⟩
  next =>
    simp only
    have hfinish : ∃ inp, (if a.inp.auto_finish_ then { a with inp := a.inp.finish } else a) =
        { a with inp } ∧ Newest inp := by
      split
      · exact ⟨_, rfl, hnewest.finish⟩
      · exact ⟨_, rfl, hnewest⟩
    obtain ⟨inp, heq, hinp⟩ := hfinish
    rw [heq]
    simp only
    split_ifs
    · exact ⟨rfl, rfl, hmode, rfl, hinp.of_eq rfl rfl⟩
    · exact ⟨rfl, rfl, hmode, rfl, hinp.of_eq rfl rfl⟩
    · have hput := hinp.put cfg i.resized (min i.cur_io_len inp.max_bytes_left).toNat i.processed
      rw [post_read_of_pre hmode, List.length_range']
      exact ⟨rfl, rfl, hmode, rfl, hput.of_eq rfl rfl⟩

theorem waiting_same (peercom : Option Bool) (s : readSide) :
    (s.read_waiting_for_peercom peercom).readbuf_ = s.readbuf_ ∧
      (s.read_waiting_for_peercom peercom).meter_read_bytes = s.meter_read_bytes := by
  unfold readSide.read_waiting_for_peercom
  split
  · cases peercom <;> exact ⟨rfl, rfl⟩
  · exact ⟨rfl, rfl⟩

theorem inside_waiting (peercom : Option Bool) :
    inside_detect_ranges cfg { a with inp := a.inp.read_waiting_for_peercom peercom } =
      a.inside_detect_ranges cfg :=
  inside_detect_ranges_eq (congrArg (a.cx.meter_write_bytes + ·) (waiting_same peercom a.inp).2) rfl

theorem read_of_waits (h : a.reads i = false) :
    (a.read cfg stream i).2 = { a with inp := a.inp.read_waiting_for_peercom i.peercom } := by
  unfold reads at h
  unfold read
  simp only
  split
  next => rfl
  next hwaits =>
    rw [Bool.and_eq_false_iff, Bool.not_eq_false', Bool.not_eq_false'] at h
    rw [if_pos (h.resolve_left hwaits)]

/-- A `read` that comes to the hook in mode `PRE`. -/
theorem read_of_reads (hmode : a.mode_ = .PRE) (h : a.reads i = true) {ok : Bool}
    (hsalvage : salvage cfg stream { a with inp := a.inp.read_waiting_for_peercom i.peercom } =
      (ok, a')) :
    (a.read cfg stream i).2 =
      if ok then ((a'.peek_ahead cfg stream i).read_in cfg stream i).2 else a' := by
  unfold reads at h
  rw [Bool.and_eq_true_iff, Bool.not_eq_true', Bool.not_eq_true'] at h
  have hwaits : ¬ (a.inp.read_waiting_for_peercom i.peercom).read_waiting_for_peercom_ = true := by
    rw [h.1]
    decide
  have hfull : ¬ i.peer_full = true := by
    rw [h.2]
    decide
  unfold read pre_read
  simp only [if_neg hwaits, if_neg hfull, if_pos hmode, hsalvage]
  cases ok <;> rfl

/-- A `read` in mode `PRE` that comes to the hook, inside the ranges. -/
theorem read_inside (cfg : config) (stream : Nat → UInt8) (hmode : a.mode_ = .PRE)
    (hnewest : Newest a.inp) (hbytes : a.captured_r = List.range a.peek_read_counter)
    (hreads : a.reads i = true) (hin : a.inside_detect_ranges cfg = true)
    (hkept : a.inp.meter_read_bytes ≤ a.peek_read_counter + a.inp.readbuf_.length) :
    (a.read cfg stream i).2.mode_ = .PRE ∧ (a.read cfg stream i).2.exceeded = a.exceeded ∧
      Newest (a.read cfg stream i).2.inp ∧
      (a.read cfg stream i).2.peek_read_counter =
        max a.peek_read_counter a.inp.meter_read_bytes + a.peeked cfg i ∧
      (a.read cfg stream i).2.captured_r =
        List.range (max a.peek_read_counter a.inp.meter_read_bytes) ++
          List.range' a.inp.meter_read_bytes (a.peeked cfg i) := by
  obtain ⟨hbuf, hmeter⟩ := waiting_same i.peercom a.inp
  obtain ⟨b, hsalvage, hinp, hbmode, hexceeded, hpeek, hcaptured⟩ :=
    salvage_spec cfg stream
      (a := { a with inp := a.inp.read_waiting_for_peercom i.peercom })
      (hnewest.of_eq hbuf hmeter)
      ((inside_waiting i.peercom).trans hin) hbytes
      (by simpa only [hbuf, hmeter] using hkept)
  rw [read_of_reads hmode hreads hsalvage, if_pos rfl]
  obtain ⟨hahead, hseen, hbuf', hmeter'⟩ := peek_ahead_spec cfg stream i b
  obtain ⟨-, hexceeded', hmode'⟩ := peek_ahead_frame cfg stream i b
  have hbnewest : Newest (b.peek_ahead cfg stream i).inp := by
    refine hnewest.of_eq ?_ ?_
    · rw [hbuf', hinp]
      exact hbuf
    · rw [hmeter', hinp]
      exact hmeter
  obtain ⟨hpeek', hcaptured', hmode'', hexceeded'', hnewest'⟩ :=
    read_in_spec cfg stream i ((hmode'.trans hbmode).trans hmode) hbnewest
  have hbmeter : b.inp.meter_read_bytes = a.inp.meter_read_bytes := by
    rw [hinp]
    exact hmeter
  have hpeeked : b.peeked cfg i = a.peeked cfg i := by
    simp only [peeked, hbmeter]
  simp only [hmeter] at hpeek
  refine ⟨hmode'', ?_, hnewest', ?_, ?_⟩
  · rw [hexceeded'', hexceeded', hexceeded]
  · rw [hpeek', hahead, hpeek, hpeeked]
  · rw [hcaptured', hseen, hcaptured, hpeek, hpeeked, hbmeter]

end AppHostCX

/-! ## Each run -/

/-- The invariant: what was captured is the start of the stream. -/
structure Tracked (c : Capture) : Prop where
  mode : c.app.mode_ = .PRE
  newest : Newest c.app.inp
  order : InOrder c

section
variable {cfg : config} {stream : Nat → UInt8} {c c' : Capture}

theorem Tracked.frame (h : Tracked c) (hside : c'.app.read_side = c.app.read_side)
    (hmode : c'.app.mode_ = c.app.mode_) (hdue : c'.due_r = c.due_r) : Tracked c' := by
  simp only [AppHostCX.read_side, Prod.mk.injEq] at hside
  obtain ⟨hinp, hpeek, hcaptured⟩ := hside
  refine ⟨hmode.trans h.mode, ?_, ?_, ?_⟩
  · rw [hinp]
    exact h.newest
  · rw [hcaptured, hpeek]
    exact h.order.bytes
  · rw [hdue, hpeek]
    exact h.order.due

/-- The read buffer may change. -/
theorem Tracked.replace (h : Tracked c) (hnewest : Newest c'.app.inp)
    (hmode : c'.app.mode_ = c.app.mode_)
    (hpeek : c'.app.peek_read_counter = c.app.peek_read_counter)
    (hcaptured : c'.app.captured_r = c.app.captured_r) (hdue : c'.due_r = c.due_r) :
    Tracked c' := by
  refine ⟨hmode.trans h.mode, hnewest, ?_, ?_⟩
  · rw [hcaptured, hpeek]
    exact h.order.bytes
  · rw [hdue, hpeek]
    exact h.order.due

/-- Outside the ranges a `read` notes it. -/
theorem read_outside {a : AppHostCX} {i : AppHostCX.reading} (hmode : a.mode_ = .PRE)
    (hreads : a.reads i = true) (hin : a.inside_detect_ranges cfg = false) :
    (a.read cfg stream i).2.exceeded = true := by
  rcases hsalvage : AppHostCX.salvage cfg stream
    { a with inp := a.inp.read_waiting_for_peercom i.peercom } with ⟨ok, b⟩
  have hexceeded := AppHostCX.salvage_outside
    ((AppHostCX.inside_waiting i.peercom).trans hin) hsalvage
  rw [AppHostCX.read_of_reads hmode hreads hsalvage]
  cases ok with
  | false => exact hexceeded
  | true =>
    obtain ⟨-, hahead, -⟩ := AppHostCX.peek_ahead_frame cfg stream i b
    obtain ⟨-, hsteady⟩ := AppHostCX.read_in_frame cfg stream i (b.peek_ahead cfg stream i)
    by_contra hnone
    have hfalse := (hsteady (Bool.eq_false_iff.mpr hnone)).1
    rw [hahead, hexceeded] at hfalse
    cases hfalse

/-- A `read` that meets the condition. -/
theorem Tracked.read (h : Tracked c) {i : AppHostCX.reading} (hex : c.app.exceeded = false)
    (hcaught : Caught cfg c (.read i)) (hs : step cfg stream c (.read i) = some c')
    (hin : c'.app.exceeded = false) : Tracked c' := by
  cases hs
  cases hreads : c.app.reads i with
  | false =>
    obtain ⟨hbuf, hmeter⟩ := AppHostCX.waiting_same i.peercom c.app.inp
    simp only [AppHostCX.read_of_waits hreads, Bool.false_and]
    exact h.replace (h.newest.of_eq hbuf hmeter) rfl rfl rfl rfl
  | true =>
    cases hrange : c.app.inside_detect_ranges cfg with
    | false =>
      rw [read_outside h.mode hreads hrange] at hin
      cases hin
    | true =>
      obtain ⟨hkept, hread⟩ := hcaught hex hreads hrange
      obtain ⟨hmode, -, hnewest, hpeek, hcaptured⟩ :=
        AppHostCX.read_inside cfg stream h.mode h.newest h.order.bytes hreads
          hrange hkept
      refine ⟨hmode, hnewest, ?_, ?_⟩
      · change (c.app.read cfg stream i).2.captured_r =
          List.range (c.app.read cfg stream i).2.peek_read_counter
        rw [hcaptured, hpeek]
        by_cases hpeeked : c.app.peeked cfg i = 0
        · rw [hpeeked, List.range'_zero, List.append_nil, Nat.add_zero]
        · -- all that was peeked before was read
          have hle : c.app.peek_read_counter ≤ c.app.inp.meter_read_bytes := by
            unfold AppHostCX.peeked at hpeeked
            split at hpeeked
            next hroom => exact hread hroom (by omega)
            next => exact absurd rfl hpeeked
          rw [Nat.max_eq_right hle, AppHostCX.range_append]
      · simp only [h.mode, decide_true, Bool.and_true, if_true]
        rw [hpeek]
        omega

/-- A `read` that does not. -/
theorem Tracked.fails (h : Tracked c) {i : AppHostCX.reading} (hex : c.app.exceeded = false)
    (hreads : c.app.reads i = true) (hin : c.app.inside_detect_ranges cfg = true)
    (hbad : c.app.peek_read_counter + c.app.inp.readbuf_.length < c.app.inp.meter_read_bytes ∨
      0 < c.app.peeked cfg i ∧ c.app.inp.meter_read_bytes < c.app.peek_read_counter)
    (hs : step cfg stream c (.read i) = some c') : ¬ ReadsCaptured c' := by
  cases hs
  intro hall
  by_cases hlost :
      c.app.peek_read_counter + c.app.inp.readbuf_.length < c.app.inp.meter_read_bytes
  · -- the view throws, and the bytes stay uncaptured
    obtain ⟨hbuf, hmeter⟩ := AppHostCX.waiting_same i.peercom c.app.inp
    have hsalvage := AppHostCX.salvage_throws cfg stream
      (a := { c.app with inp := c.app.inp.read_waiting_for_peercom i.peercom })
      ((AppHostCX.inside_waiting i.peercom).trans hin) (by simpa only [hbuf, hmeter] using hlost)
    have hread := AppHostCX.read_of_reads h.mode hreads hsalvage
    rw [if_neg (by decide)] at hread
    have hdue := (hall (by rw [hread]; exact hex)).due
    simp only [hread, hreads, h.mode, decide_true, Bool.and_true, if_true] at hdue
    omega
  · obtain ⟨hpos, hahead⟩ := hbad.resolve_left hlost
    obtain ⟨hmode, hexceeded, -, hpeek, hcaptured⟩ :=
      AppHostCX.read_inside cfg stream h.mode h.newest h.order.bytes hreads
        hin (Nat.not_lt.mp hlost)
    have hbytes := (hall (hexceeded.trans hex)).bytes
    simp only [hpeek, hcaptured, Nat.max_eq_left (Nat.le_of_lt hahead)] at hbytes
    -- the first byte that is peeked again
    rw [← AppHostCX.range_append] at hbytes
    have hagain := List.append_cancel_left hbytes
    obtain ⟨k, hk⟩ := Nat.exists_eq_succ_of_ne_zero (Nat.ne_of_gt hpos)
    rw [hk, List.range'_succ, List.range'_succ] at hagain
    exact Nat.ne_of_lt hahead (List.cons.inj hagain).1

/-- Whatever comes in mode `PRE`. -/
theorem step_tracked (h : c.app.exceeded = false → Tracked c) {o : operation}
    (hcaught : Caught cfg c o) (hs : step cfg stream c o = some c')
    (hin : c'.app.exceeded = false) : Tracked c' := by
  cases o with
  | out call =>
    by_cases hwrite : ∃ peercom l, call = .write peercom l
    · obtain ⟨peercom, l, rfl⟩ := hwrite
      obtain ⟨-, -, rfl⟩ := step_write hs
      obtain ⟨hside, hsteady⟩ := AppHostCX.write_frame cfg peercom l c.app
      obtain ⟨hex, hmode⟩ := hsteady hin
      exact (h hex).frame hside (hmode (by rw [(h hex).mode]; decide)) rfl
    · obtain ⟨cx, b, rfl, -, -⟩ := step_out (fun peercom l heq => hwrite ⟨peercom, l, heq⟩) hs
      exact (h hin).frame rfl rfl rfl
  | read i =>
    have hex : c.app.exceeded = false := by
      cases hs
      exact ((AppHostCX.read_frame cfg stream i c.app).2 hin).1
    exact (h hex).read hex hcaught hs hin
  | finish =>
    cases hs
    exact (h hin).replace (h hin).newest.finish rfl rfl rfl rfl
  | auto_finish a =>
    cases hs
    exact (h hin).replace ((h hin).newest.of_eq rfl rfl) rfl rfl rfl rfl
  | read_waiting_for_peercom p =>
    cases hs
    exact (h hin).replace ((h hin).newest.of_eq rfl rfl) rfl rfl rfl rfl

end

/-- In mode `PRE` the flow has the stream in each run of a stream socket in which, when something can
be peeked, all that was peeked was read, and what was not peeked is still in the read buffer. -/
theorem reads_are_captured (cfg : config) (stream : Nat → UInt8) (p : chunks)
    (ops : List operation) :
    Always (step cfg stream) ReadsCaptured (start cfg p SOCK_STREAM .PRE) ops ↔
      Meets (step cfg stream) (Caught cfg) (start cfg p SOCK_STREAM .PRE) ops := by
  have hstart : (start cfg p SOCK_STREAM .PRE).app.exceeded = false →
      Tracked (start cfg p SOCK_STREAM .PRE) :=
    fun _ => ⟨rfl, ⟨Nat.zero_le _, rfl⟩, ⟨rfl, Nat.le_refl _⟩⟩
  refine always_iff_meets (P := fun c => c.app.exceeded = false → Tracked c)
    (fun c h hin => (h hin).order) (fun _ _ _ h hcaught hs hin => step_tracked h hcaught hs hin) ?_
    hstart ops
  intro c o c' h hbad hs
  match o with
  | .read i =>
    simp only [Caught, Classical.not_imp, not_and_or, Nat.not_le] at hbad
    obtain ⟨hex, hreads, hin, hbad⟩ := hbad
    refine (h hex).fails hex hreads hin (hbad.imp_right ?_) hs
    rintro ⟨hroom, hpeeks, hahead⟩
    refine ⟨?_, hahead⟩
    rw [AppHostCX.peeked, if_pos hroom]
    omega
  | .out _ | .finish | .auto_finish _ | .read_waiting_for_peercom _ => exact absurd trivial hbad

/-- Ten bytes are peeked and four of them are read. Then the other six are peeked again. -/
def short_read : List operation :=
  [.read { peek := fun _ => 10, cur_io_len := 4, processed := 4 },
    .read { peek := fun _ => 6, cur_io_len := 6, processed := 6 }]

theorem a_peeked_byte_is_captured_twice :
    ¬ ∀ (stream : Nat → UInt8) (p : chunks) (ops : List operation),
      Always (step {} stream) ReadsCaptured (start {} p SOCK_STREAM .PRE) ops := by
  intro hall
  have hrun : (exec (step {} fun _ => 0) (start {} .plenty SOCK_STREAM .PRE) short_read).map
      (fun c => (c.app.exceeded, c.app.captured_r, c.app.peek_read_counter)) =
        some (false, [0, 1, 2, 3, 4, 5, 6, 7, 8, 9, 4, 5, 6, 7, 8, 9], 16) := by decide
  obtain ⟨c, hexec, hc⟩ := Option.map_eq_some_iff.mp hrun
  obtain ⟨hin, hrest⟩ := Prod.mk.inj hc
  obtain ⟨hcaptured, hpeek⟩ := Prod.mk.inj hrest
  have hbytes := (always_exec (hall (fun _ => 0) .plenty short_read) hexec hin).bytes
  rw [hcaptured, hpeek] at hbytes
  exact absurd hbytes (by decide)

end socle.apphostcx
