-- What stays in the read buffer (hostcx.cpp: after_read and finish): the bytes
-- that process_in did not report. A byte stands in the buffer as its place in the
-- stream.
import Socle.HostRead

namespace socle.hostcx.reading

open lib.run apphostcx

/-! ## What is to be removed -/

/-- A reader. No function of the code keeps `removed`, the number of bytes that were reported and
finished, and `due`, the number that the last `process_in` reported and that are not finished. -/
structure tracked where
  r : reader
  removed : Nat := 0
  due : Nat := 0

namespace tracked

/-- What was reported is finished. -/
def take (p : tracked) : tracked :=
  { p with removed := p.removed + p.due, due := 0 }

/-- `read` finishes the buffer. -/
def finishes (t : turn) (p : tracked) : Bool :=
  (p.r.before_io t).1 && p.r.inp.auto_finish_

/-- `read` calls `process_in`. -/
def processes (t : turn) (p : tracked) : Bool :=
  (p.r.before_io t).1 && decide (0 < t.cur_io_len) &&
    decide (p.r.inp.meter_read_bytes + t.cur_io_len.toNat > p.r.inp.processed_in_total_)

end tracked

/-- The steps of `step`, with what they remove and what is reported. -/
def tracked_step (cfg : config) (p : tracked) (a : operation) : Option tracked :=
  (step cfg p.r a).map fun r =>
    match a with
    | .read t =>
      let p' := if p.finishes t then p.take else p
      { p' with r, due := if p.processes t then t.processed else p'.due }
    | .finish => { p.take with r }
    | _ => { p with r }

def tracked_start (cfg : config) (p : chunks) : tracked :=
  { r := start cfg p }

/-! ## The law -/

/-- The buffer has each byte that was read and not yet removed, in order. -/
structure Kept (p : tracked) : Prop where
  removed : p.removed ≤ p.r.inp.meter_read_bytes
  bytes : p.r.inp.readbuf_ = List.range' p.removed (p.r.inp.meter_read_bytes - p.removed)

/-- The buffer is empty, or something was reported that is not finished, and the counter still has it
(or it is the whole buffer). -/
def tracked.Finishable (p : tracked) : Prop :=
  p.r.inp.readbuf_ = [] ∨
    0 < p.due ∧ (p.r.inp.processed_in_ = p.due ∨ p.due = p.r.inp.readbuf_.length)

/-- What is finished, by a proxy or by `read`, is finishable. -/
def Removable (p : tracked) : operation → Prop
  | .finish => p.Finishable
  | .read t => p.finishes t = true → p.Finishable
  | _ => True

/-! ## The invariant -/

/-- The counter has what is due, when both have something. -/
structure Tracked (p : tracked) : Prop extends Kept p where
  due : p.due ≤ p.r.inp.readbuf_.length
  counter : p.r.inp.processed_in_ = 0 ∨ p.due = 0 ∨ p.r.inp.processed_in_ = p.due

section
variable {p p' : tracked}

theorem Tracked.length (h : Tracked p) :
    p.r.inp.readbuf_.length = p.r.inp.meter_read_bytes - p.removed := by
  rw [h.bytes, List.length_range']

theorem flush_eq_drop {α : Type} {n : Nat} {l : List α} (hn : 0 < n) : flush n l = l.drop n := by
  unfold flush
  split
  next h =>
    have hle : l.length ≤ n := by omega
    exact (List.drop_eq_nil_of_le hle).symm
  next => rfl

/-- `finish` takes what the counter has from the head, or, where the counter is wrong, everything. -/
theorem finish_readbuf (s : readSide) : s.finish.readbuf_ =
    if 0 < s.processed_in_ then s.readbuf_.drop s.processed_in_ else [] := by
  by_cases hnil : s.readbuf_ = []
  · rw [finish_of_nil hnil, hnil, List.drop_nil, ite_self]
  have hall : flush s.readbuf_.length s.readbuf_ = [] := by
    rw [flush_eq_drop (List.length_pos_iff.mpr hnil), List.drop_length]
  unfold readSide.finish
  by_cases hpos : 0 < s.processed_in_
  · rw [if_pos hpos]
    split
    next => exact flush_eq_drop hpos
    next hmore =>
      have hle : s.readbuf_.length ≤ s.processed_in_ := by omega
      rw [List.drop_eq_nil_of_le hle]
      exact hall
  · rw [if_neg hpos, if_neg fun htake => hpos htake.2, if_neg hnil]
    exact hall

/-- `finish` removes what is due when, and only when, the buffer is finishable. -/
theorem finish_length_iff (h : Tracked p) :
    p.r.inp.finish.readbuf_.length = p.r.inp.readbuf_.length - p.due ↔ p.Finishable := by
  have hdue := h.due
  have hcounter := h.counter
  rw [finish_readbuf, tracked.Finishable, ← List.length_eq_zero_iff]
  split
  · rw [List.length_drop]
    omega
  · rw [List.length_nil]
    omega

theorem finish_drop (h : Tracked p) (hf : p.Finishable) :
    p.r.inp.finish.readbuf_ = p.r.inp.readbuf_.drop p.due := by
  have hlength := (finish_length_iff h).mpr hf
  rw [finish_readbuf] at hlength ⊢
  split at hlength
  next hpos =>
    rw [if_pos hpos]
    rw [List.length_drop] at hlength
    by_cases hsame : p.r.inp.processed_in_ = p.due
    · rw [hsame]
    · have hdue := h.due
      have hcounter := h.counter
      rw [List.drop_eq_nil_of_le (by omega), List.drop_eq_nil_of_le (by omega)]
  next hpos =>
    rw [if_neg hpos]
    rw [List.length_nil] at hlength
    exact (List.drop_eq_nil_of_le (by omega)).symm

/-! ## One operation -/

/-- The reader is finished, and what was due is taken. -/
theorem take_kept (h : Tracked p) {r : reader}
    (hmeter : r.inp.meter_read_bytes = p.r.inp.meter_read_bytes)
    (hreadbuf : r.inp.readbuf_ = p.r.inp.finish.readbuf_) :
    Kept { p.take with r } ↔ p.Finishable := by
  have hlength := h.length
  have hdue := h.due
  have hremoved := h.removed
  constructor
  · intro hkept
    apply (finish_length_iff h).mp
    have hbytes := congrArg List.length hkept.bytes
    simp only [tracked.take, hreadbuf, hmeter, List.length_range'] at hbytes
    omega
  · intro hf
    refine ⟨?_, ?_⟩
    · simp only [tracked.take, hmeter]
      omega
    · simp only [tracked.take, hreadbuf, hmeter, finish_drop h hf]
      have hcount : p.r.inp.meter_read_bytes - (p.removed + p.due) =
          p.r.inp.meter_read_bytes - p.removed - p.due := by omega
      rw [h.bytes, List.drop_range', hcount, Nat.mul_one]

theorem take_tracked (h : Tracked p) (hf : p.Finishable) {r : reader}
    (hmeter : r.inp.meter_read_bytes = p.r.inp.meter_read_bytes)
    (hreadbuf : r.inp.readbuf_ = p.r.inp.finish.readbuf_) : Tracked { p.take with r } where
  toKept := (take_kept h hmeter hreadbuf).mpr hf
  due := Nat.zero_le _
  counter := Or.inr (Or.inl rfl)

/-- The buffer and its counters stay. -/
theorem Tracked.of_same (h : Tracked p) {r : reader}
    (hmeter : r.inp.meter_read_bytes = p.r.inp.meter_read_bytes)
    (hreadbuf : r.inp.readbuf_ = p.r.inp.readbuf_)
    (hprocessed : r.inp.processed_in_ = p.r.inp.processed_in_ ∨ r.inp.processed_in_ = 0) :
    Tracked { p with r } := by
  refine ⟨⟨?_, ?_⟩, ?_, ?_⟩
  · rw [hmeter]
    exact h.removed
  · rw [hmeter, hreadbuf]
    exact h.bytes
  · rw [hreadbuf]
    exact h.due
  · rcases hprocessed with hsame | hzero
    · rw [hsame]
      exact h.counter
    · exact Or.inl hzero

/-- A reader from `io_read` on. -/
def tracked.from_io (cfg : config) (t : turn) (p : tracked) : tracked :=
  { p with
    r := (p.r.from_io cfg t).2
    due :=
      if 0 < t.cur_io_len ∧
        p.r.inp.meter_read_bytes + t.cur_io_len.toNat > p.r.inp.processed_in_total_
      then t.processed else p.due }

/-- What `io_read` gave is behind the buffer, or nothing came. -/
theorem from_io_cases (cfg : config) (t : turn) (r : reader) :
    (t.cur_io_len ≤ 0 ∧ (r.from_io cfg t).2.inp.readbuf_ = r.inp.readbuf_ ∧
        (r.from_io cfg t).2.inp.meter_read_bytes = r.inp.meter_read_bytes ∧
        ((r.from_io cfg t).2.inp.processed_in_ = r.inp.processed_in_ ∨
          (r.from_io cfg t).2.inp.processed_in_ = 0)) ∨
      0 < t.cur_io_len ∧ ∃ s', Put r.inp
        (List.range' r.inp.meter_read_bytes t.cur_io_len.toNat) t.processed s' ∧
        (r.from_io cfg t).2.inp = { s' with read_limit_ := none } := by
  unfold reader.from_io
  by_cases hneg : t.cur_io_len < 0
  · rw [if_pos hneg]
    exact Or.inl ⟨Int.le_of_lt hneg, rfl, rfl, Or.inr rfl⟩
  by_cases hzero : t.cur_io_len = 0
  · rw [if_neg hneg, if_pos hzero]
    exact Or.inl ⟨Int.le_of_eq hzero, rfl, rfl, Or.inl rfl⟩
  · rw [if_neg hneg, if_neg hzero]
    exact Or.inr ⟨by omega, _, put_spec cfg t.resized _ t.processed, rfl⟩

/-- A chunk does not change what is kept in front of it. -/
theorem from_io_kept (cfg : config) (t : turn) (hremoved : p.removed ≤ p.r.inp.meter_read_bytes) :
    Kept (p.from_io cfg t) ↔ Kept p := by
  have hsame : Kept p ↔
      p.r.inp.readbuf_ = List.range' p.removed (p.r.inp.meter_read_bytes - p.removed) :=
    ⟨fun h => h.bytes, fun h => ⟨hremoved, h⟩⟩
  rw [hsame]
  rcases from_io_cases cfg t p.r with ⟨-, hreadbuf, hmeter, -⟩ | ⟨hpos, s', hput, hinp⟩
  · constructor
    · intro h
      have hbytes := h.bytes
      rwa [tracked.from_io, hreadbuf, hmeter] at hbytes
    · intro h
      refine ⟨?_, ?_⟩
      · rw [tracked.from_io, hmeter]
        exact hremoved
      · rw [tracked.from_io, hreadbuf, hmeter]
        exact h
  · have hmeter : s'.meter_read_bytes = p.r.inp.meter_read_bytes + t.cur_io_len.toNat := by
      rw [hput.meter, List.length_range']
    have hsplit : List.range' p.removed (s'.meter_read_bytes - p.removed) =
        List.range' p.removed (p.r.inp.meter_read_bytes - p.removed) ++
          List.range' p.r.inp.meter_read_bytes t.cur_io_len.toNat := by
      have hcount : s'.meter_read_bytes - p.removed =
          p.r.inp.meter_read_bytes - p.removed + t.cur_io_len.toNat := by omega
      have hstart : p.r.inp.meter_read_bytes =
          p.removed + (p.r.inp.meter_read_bytes - p.removed) := by omega
      rw [hcount, ← List.range'_append_1, ← hstart]
    constructor
    · intro h
      have hbytes := h.bytes
      simp only [tracked.from_io, hinp, hput.readbuf, hsplit] at hbytes
      exact List.append_cancel_right hbytes
    · intro h
      refine ⟨?_, ?_⟩
      · simp only [tracked.from_io, hinp, hmeter]
        omega
      · simp only [tracked.from_io, hinp, hput.readbuf, hsplit, h]

theorem from_io_tracked {cfg : config} {t : turn} (h : Tracked p) (hfair : t.Fair p.r) :
    Tracked (p.from_io cfg t) := by
  have hkept := (from_io_kept cfg t h.removed).mpr h.toKept
  rcases from_io_cases cfg t p.r with ⟨hnone, hreadbuf, hmeter, hprocessed⟩ | ⟨hpos, s', hput, hinp⟩
  · have hdue : (p.from_io cfg t).due = p.due := if_neg fun hcalled => by omega
    have hsame := h.of_same hmeter hreadbuf hprocessed
    refine ⟨hkept, ?_, ?_⟩
    · rw [hdue]
      exact hsame.due
    · rw [hdue]
      exact hsame.counter
  · have hcalled := hput.called
    have hskipped := hput.skipped
    have hlength : s'.readbuf_.length = p.r.inp.readbuf_.length + t.cur_io_len.toNat := by
      rw [hput.readbuf, List.length_append, List.length_range']
    rw [List.length_range'] at hcalled hskipped
    have hdue := h.due
    have hprocessed := hfair.2
    refine ⟨hkept, ?_, ?_⟩
    · simp only [tracked.from_io, hinp, hlength]
      split <;> omega
    · simp only [tracked.from_io, hinp, hpos, true_and]
      split
      next hmore => exact Or.inr (Or.inr (hcalled hmore))
      next hless => exact Or.inl (hskipped hless)

end

/-! ## One operation -/

section
variable {cfg : config} {p p' : tracked} {t : turn}

/-- The reader in front of `io_read`. -/
def tracked.before_io (t : turn) (p : tracked) : tracked :=
  { (if p.finishes t then p.take else p) with r := (p.r.before_io t).2 }

theorem before_io_kept (h : Tracked p) (t : turn) :
    Kept (p.before_io t) ↔ Removable p (.read t) := by
  have hprepared := before_io_prepared t p.r
  have hreadbuf := hprepared.readbuf
  unfold tracked.before_io Removable
  cases hfinishes : p.finishes t with
  | true =>
    have hboth : (p.r.before_io t).1 = true ∧ p.r.inp.auto_finish_ = true := by
      simpa [tracked.finishes] using hfinishes
    rw [if_pos hboth] at hreadbuf
    simp only [hfinishes, if_true, true_imp_iff]
    exact take_kept h hprepared.meter hreadbuf
  | false =>
    have hnot : ¬ ((p.r.before_io t).1 = true ∧ p.r.inp.auto_finish_ = true) := by
      simpa [tracked.finishes] using hfinishes
    rw [if_neg hnot] at hreadbuf
    simp only [hfinishes, Bool.false_eq_true, if_false, false_imp_iff, iff_true]
    exact (h.of_same hprepared.meter hreadbuf (Or.inl hprepared.processed)).toKept

theorem before_io_tracked (h : Tracked p) (hr : Removable p (.read t)) :
    Tracked (p.before_io t) := by
  have hkept := (before_io_kept h t).mpr hr
  have hprepared := before_io_prepared t p.r
  have hreadbuf := hprepared.readbuf
  unfold tracked.before_io at hkept ⊢
  cases hfinishes : p.finishes t with
  | true =>
    rw [hfinishes] at hkept
    exact ⟨hkept, Nat.zero_le _, Or.inr (Or.inl rfl)⟩
  | false =>
    have hnot : ¬ ((p.r.before_io t).1 = true ∧ p.r.inp.auto_finish_ = true) := by
      simpa [tracked.finishes] using hfinishes
    rw [if_neg hnot] at hreadbuf
    exact h.of_same hprepared.meter hreadbuf (Or.inl hprepared.processed)

/-- A `read` prepares the buffer, and goes on from `io_read` when it comes there. -/
theorem tracked_read (hs : tracked_step cfg p (.read t) = some p') :
    t.Fair (p.before_io t).r ∧
      p' = if (p.r.before_io t).1 then (p.before_io t).from_io cfg t else p.before_io t := by
  obtain ⟨r, hr, rfl⟩ := Option.map_eq_some_iff.mp hs
  have hprepared := before_io_prepared t p.r
  simp only [step] at hr
  split at hr
  next hfair =>
    cases hr
    refine ⟨hfair, ?_⟩
    unfold tracked.before_io tracked.from_io tracked.processes reader.read
    simp only [hprepared.meter, hprepared.total]
    rcases p.r.before_io t with ⟨arrives, r₁⟩
    cases arrives <;> simp
  next => cases hr

theorem step_kept {a : operation} (h : Tracked p) (hs : tracked_step cfg p a = some p') :
    (Kept p' ↔ Removable p a) ∧ (Removable p a → Tracked p') := by
  cases a with
  | read t =>
    obtain ⟨hfair, rfl⟩ := tracked_read hs
    have hkept := before_io_kept h t
    have hremoved : (p.before_io t).removed ≤ (p.before_io t).r.inp.meter_read_bytes := by
      have hmeter := (before_io_prepared t p.r).meter
      have hlength := h.length
      have hdue := h.due
      have hle := h.removed
      simp only [tracked.before_io, hmeter]
      split
      · simp only [tracked.take]
        omega
      · exact hle
    split
    next =>
      rw [from_io_kept cfg t hremoved]
      exact ⟨hkept, fun hr => from_io_tracked (before_io_tracked h hr) hfair⟩
    next => exact ⟨hkept, before_io_tracked h⟩
  | finish =>
    cases hs
    have hmeter : p.r.inp.finish.meter_read_bytes = p.r.inp.meter_read_bytes := by
      rw [finish_same]
    exact ⟨take_kept h hmeter rfl, fun hf => take_tracked h hf hmeter rfl⟩
  | auto_finish a =>
    cases hs
    have hsame := h.of_same (r := { p.r with inp := { p.r.inp with auto_finish_ := a } }) rfl rfl
      (Or.inl rfl)
    exact ⟨iff_of_true hsame.toKept trivial, fun _ => hsame⟩
  | read_waiting_for_peercom b =>
    cases hs
    have hsame := h.of_same (r := { p.r with inp := { p.r.inp with read_waiting_for_peercom_ := b } })
      rfl rfl (Or.inl rfl)
    exact ⟨iff_of_true hsame.toKept trivial, fun _ => hsame⟩
  | read_limit s =>
    cases hs
    have hsame := h.of_same (r := { p.r with inp := { p.r.inp with read_limit_ := s } }) rfl rfl
      (Or.inl rfl)
    exact ⟨iff_of_true hsame.toKept trivial, fun _ => hsame⟩

end

/-! ## Runs -/

theorem start_tracked (cfg : config) (p : chunks) : Tracked (tracked_start cfg p) where
  removed := by simp [tracked_start]
  bytes := by simp [tracked_start, start]
  due := by simp [tracked_start]
  counter := by simp [tracked_start]

/-- What was read stays in the buffer until it is reported and finished when, and only when, each
buffer that is finished is finishable. -/
theorem unprocessed_bytes_are_kept (cfg : config) (p : chunks) (ops : List operation) :
    Always (tracked_step cfg) Kept (tracked_start cfg p) ops ↔
      Meets (tracked_step cfg) Removable (tracked_start cfg p) ops :=
  always_iff_meets (fun _ h => h.toKept) (fun _ _ _ h hc hs => (step_kept h hs).2 hc)
    (fun _ _ _ h hc hs => mt (step_kept h hs).1.mp hc) (start_tracked cfg p) ops

/-- Of a message of eight bytes five come first, and `process_in` waits for the rest: the next `read`
removes them. -/
theorem an_incomplete_message_is_removed :
    ¬ ∀ (cfg : config) (p : chunks) (ops : List operation),
        Always (tracked_step cfg) Kept (tracked_start cfg p) ops := by
  intro hall
  have hkept := always_exec (hall {} .plenty [.read { cur_io_len := 5, processed := 0 },
    .read { cur_io_len := 3, processed := 0 }]) rfl
  exact absurd hkept.bytes (by decide)

end socle.hostcx.reading
