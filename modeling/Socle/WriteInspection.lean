-- Does `process_out` see each byte before it is written? The bytes carry a mark
-- here that tells whether they were in the buffer during a call of it. The code
-- cannot read the marks, so they change nothing.
import Socle.WriteStream

namespace socle.hostcx

open lib.run

/-! ## Marked bytes -/

/-- A byte, and whether it was in the buffer during a call of `process_out`. -/
structure octet where
  value : UInt8
  seen : Bool
deriving DecidableEq

def unseen (b : UInt8) : octet :=
  { value := b, seen := false }

def mark (b : UInt8) : octet :=
  { value := b, seen := true }

/-- A `process_out` that leaves `f b` of the buffer `b`, and says that it handled all of it. -/
def handle (f : List UInt8 → List UInt8) (b : List UInt8) : Nat × List UInt8 :=
  ((f b).length, f b)

/-- The same function, which marks what it saw. -/
def look (f : List UInt8 → List UInt8) (b : List octet) : Nat × List octet :=
  ((f (b.map octet.value)).length, (f (b.map octet.value)).map mark)

/-- A call, with the `process_out` that it finds. -/
structure act where
  call : call UInt8
  process_out : List UInt8 → List UInt8 := id

section
variable {α β : Type} (g : α → β)

def baseHostCX.map (cx : baseHostCX α) : baseHostCX β :=
  { cx with writebuf_ := cx.writebuf_.map g }

def tx.map (t : tx α) : tx β :=
  { t with data := t.data.map g }

def call.map : call α → call β
  | .to_write_buffer fast_copy_start b => .to_write_buffer fast_copy_start (b.map g)
  | .to_write_string s => .to_write_string (s.map g)
  | .to_write_ptr c l => .to_write_ptr (c.map g) l
  | .write peercom l => .write peercom l
  | .write_waiting_for_peercom p => .write_waiting_for_peercom p
  | .close_after_write b => .close_after_write b
  | .opening b => .opening b

def Stream.map (s : Stream α) : Stream β where
  cx := s.cx.map g
  given := s.given.map g
  txs := s.txs.map (tx.map g)

end

/-- A step of the code. -/
def plain_step (s : Stream UInt8) (a : act) : Option (Stream UInt8) :=
  step (handle a.process_out) s a.call

/-- The same step on marked bytes. What is given to the connection is not seen yet. -/
def marked_step (s : Stream octet) (a : act) : Option (Stream octet) :=
  step (look a.process_out) s (a.call.map unseen)

/-! ## The law -/

/-- Each byte that `io_write` accepted was in the buffer during a call of `process_out`. -/
def Inspected (s : Stream octet) : Prop :=
  ∀ t ∈ s.txs, ∀ b ∈ t.taken, b.seen = true

instance : DecidablePred Inspected :=
  fun s => inferInstanceAs (Decidable (∀ t ∈ s.txs, ∀ b ∈ t.taken, b.seen = true))

/-- The bytes that came after the last call of `process_out`. -/
def fresh (cx : baseHostCX octet) : Nat :=
  cx.writebuf_.countP fun b => !b.seen

/-- A `write` that finds its totals such that it does not call `process_out` gets rid of none of the
bytes that came after the last call. -/
def LooksFirst (s : Stream octet) (a : act) : Prop :=
  match a.call with
  | .write peercom l =>
    (s.cx.write_waiting_for_peercom peercom).write_waiting_for_peercom_ = false →
      s.cx.meter_write_bytes + s.cx.writebuf_.length ≤ s.cx.processed_out_total_ →
        l.toNat + fresh s.cx ≤ s.cx.writebuf_.length
  | _ => True

/-! ## The marks change nothing -/

section
variable {α β : Type} (g : α → β)

theorem map_flush (n : Nat) (b : List α) : (flush n b).map g = flush n (b.map g) := by
  unfold flush
  rw [List.length_map]
  split
  · rfl
  · exact List.map_drop ..

theorem map_shutdown (cx : baseHostCX α) : (cx.map g).shutdown = cx.shutdown.map g := by
  unfold baseHostCX.shutdown baseHostCX.map
  split <;> rfl

theorem map_waiting (peercom : Option Bool) (cx : baseHostCX α) :
    (cx.map g).write_waiting_for_peercom peercom =
      (cx.write_waiting_for_peercom peercom).map g := by
  unfold baseHostCX.write_waiting_for_peercom baseHostCX.map
  split
  · cases peercom <;> rfl
  · rfl

theorem map_after_write (l : Int) (cx : baseHostCX α) :
    (cx.map g).after_write l = (cx.after_write l).map g := by
  unfold baseHostCX.after_write
  by_cases hl : l > 0
  · simp only [if_pos hl]
    have hflush : flush l.toNat (cx.map g).writebuf_ = (flush l.toNat cx.writebuf_).map g :=
      (map_flush g _ _).symm
    have hlen : (cx.map g).writebuf_.length = cx.writebuf_.length := List.length_map ..
    have hclose : (cx.map g).close_after_write_ = cx.close_after_write_ := rfl
    rw [hflush, hlen, hclose]
    simp only [List.map_eq_nil_iff]
    split
    · rw [← map_shutdown]
      rfl
    · rfl
  · simp only [if_neg hl]
    simp only [baseHostCX.map, ne_eq, List.map_eq_nil_iff]
    split <;> rfl

theorem map_offer (cx : baseHostCX α) : (cx.map g).offer = cx.offer.map g := by
  simp [baseHostCX.offer, baseHostCX.map]

theorem map_to_write_buffer (fast_copy_start : Nat) (b : List α) (cx : baseHostCX α) :
    ((cx.map g).to_write_buffer fast_copy_start (b.map g)).2 =
      (cx.to_write_buffer fast_copy_start b).2.map g := by
  unfold baseHostCX.to_write_buffer
  simp only [baseHostCX.map, List.map_eq_nil_iff]
  split
  · rfl
  · simp only [List.map_append]

end

theorem values_marked (l : List UInt8) : (l.map mark).map octet.value = l := by
  simp [mark, Function.comp_def]

theorem values_unseen (l : List UInt8) : (l.map unseen).map octet.value = l := by
  simp [unseen, Function.comp_def]

theorem map_see_out (f : List UInt8 → List UInt8) (cx : baseHostCX octet) :
    (cx.map octet.value).see_out (handle f) = (cx.see_out (look f)).map octet.value := by
  unfold baseHostCX.see_out
  have hlen : (cx.map octet.value).writebuf_.length = cx.writebuf_.length := List.length_map ..
  rw [hlen]
  by_cases hunseen : cx.meter_write_bytes + cx.writebuf_.length > cx.processed_out_total_
  · rw [if_pos hunseen]
    refine (if_pos hunseen).trans ?_
    simp only [baseHostCX.map, handle, look, values_marked]
  · rw [if_neg hunseen]
    exact if_neg hunseen

/-- A step of the code is a step on the marked bytes without the marks. -/
theorem plain_step_map (s : Stream octet) (a : act) :
    plain_step (s.map octet.value) a = (marked_step s a).map (Stream.map octet.value) := by
  unfold plain_step marked_step
  obtain ⟨c, f⟩ := a
  cases c with
  | to_write_buffer fast_copy_start b =>
    simp only [call.map, step, Option.map_some, Option.some.injEq]
    have hcx := map_to_write_buffer octet.value fast_copy_start (b.map unseen) s.cx
    rw [values_unseen] at hcx
    simp only [Stream.map, List.map_append, values_unseen, hcx]
  | to_write_string b =>
    simp only [call.map, step, Option.map_some, Stream.map,
      baseHostCX.to_write_string, baseHostCX.map, List.map_append, values_unseen]
  | to_write_ptr b l =>
    simp only [call.map, step, List.length_map]
    split
    · rfl
    · simp only [Option.map_some, Stream.map, baseHostCX.to_write_ptr,
        baseHostCX.map, List.map_append, List.map_take, values_unseen]
  | write peercom l =>
    simp only [call.map, step, baseHostCX.write]
    have hcx : (s.map octet.value).cx = s.cx.map octet.value := rfl
    rw [hcx, map_waiting]
    cases hw : (s.cx.write_waiting_for_peercom peercom).write_waiting_for_peercom_ with
    | true =>
      have hw' : ((s.cx.write_waiting_for_peercom peercom).map
          octet.value).write_waiting_for_peercom_ = true := hw
      simp only [hw', if_true, Option.map_some, Option.some.injEq]
      rfl
    | false =>
      have hw' : ((s.cx.write_waiting_for_peercom peercom).map
          octet.value).write_waiting_for_peercom_ = false := hw
      simp only [hw', Bool.false_eq_true, if_false, map_see_out, map_offer, map_after_write,
        List.length_map]
      split
      · rfl
      · simp only [Option.map_some, Stream.map, List.map_append, List.map_cons, List.map_nil, tx.map]
  | write_waiting_for_peercom p => rfl
  | close_after_write b => rfl
  | opening b => rfl

/-- So a run of the code is a run on the marked bytes without the marks. -/
theorem plain_run_map (s : Stream octet) (acts : List act) :
    exec plain_step (s.map octet.value) acts =
      (exec marked_step s acts).map (Stream.map octet.value) :=
  exec_map plain_step_map s acts

/-! ## Each run -/

/-- The bytes in front of the buffer were seen, and those behind them were not. -/
structure Sorted (s : Stream octet) : Prop where
  inspected : Inspected s
  sorted : ∃ old new, s.cx.writebuf_ = old ++ new ∧ (∀ b ∈ old, b.seen = true) ∧
    ∀ b ∈ new, b.seen = false

theorem fresh_eq {cx : baseHostCX octet} {old new : List octet} (h : cx.writebuf_ = old ++ new)
    (hold : ∀ b ∈ old, b.seen = true) (hnew : ∀ b ∈ new, b.seen = false) :
    fresh cx = new.length := by
  unfold fresh
  rw [h, List.countP_append]
  have hzero : old.countP (fun b => !b.seen) = 0 := by
    rw [List.countP_eq_zero]
    intro b hb
    simp [hold b hb]
  have hall : new.countP (fun b => !b.seen) = new.length := by
    rw [List.countP_eq_length]
    intro b hb
    simp [hnew b hb]
  rw [hzero, hall, Nat.zero_add]

theorem start_sorted (fds : Int) : Sorted (start fds) where
  inspected := fun t ht => by cases ht
  sorted := ⟨[], [], rfl, (List.forall_mem_nil _), (List.forall_mem_nil _)⟩

theorem append_sorted {s : Stream octet} (h : Sorted s) {cx : baseHostCX octet}
    {b : List UInt8} (hbuf : cx.writebuf_ = s.cx.writebuf_ ++ b.map unseen) (given : List octet) :
    Sorted { s with cx, given } where
  inspected := h.inspected
  sorted := by
    obtain ⟨old, new, hw, hold, hnew⟩ := h.sorted
    refine ⟨old, new ++ b.map unseen, ?_, hold, ?_⟩
    · rw [hbuf, hw, List.append_assoc]
    · intro x hx
      rcases List.mem_append.mp hx with hx | hx
      · exact hnew x hx
      · obtain ⟨y, -, rfl⟩ := List.mem_map.mp hx
        rfl

/-- A call of `io_write` that takes only bytes that were seen. -/
theorem tx_sorted {s : Stream octet} (h : Inspected s) {cx : baseHostCX octet} {l : Int}
    {old new : List octet} (hold : ∀ b ∈ old, b.seen = true) (hnew : ∀ b ∈ new, b.seen = false)
    (hl : l.toNat ≤ old.length) (hbuf : cx.writebuf_ = (old ++ new).drop l.toNat) :
    Sorted { s with cx, txs := s.txs ++ [{ data := old ++ new, l }] } where
  inspected := by
    intro t ht b hb
    rcases List.mem_append.mp ht with ht | ht
    · exact h t ht b hb
    · rw [List.mem_singleton] at ht
      subst ht
      have htaken : (old ++ new).take l.toNat = old.take l.toNat :=
        List.take_append_of_le_length hl
      simp only [tx.taken, htaken] at hb
      exact hold b (List.mem_of_mem_take hb)
  sorted := by
    refine ⟨old.drop l.toNat, new, ?_, fun b hb => hold b (List.mem_of_mem_drop hb), hnew⟩
    rw [hbuf]
    exact List.drop_append_of_le_length hl

/-- A call that takes more than the bytes that were seen takes the first one behind them. -/
theorem taken_behind {old rest : List octet} {b : octet} {l : Int} (hl : old.length < l.toNat) :
    b ∈ tx.taken { data := old ++ b :: rest, l } := by
  rw [tx.taken, List.take_append]
  apply List.mem_append_right
  have hpos : l.toNat - old.length ≠ 0 := by omega
  obtain ⟨k, hk⟩ := Nat.exists_eq_succ_of_ne_zero hpos
  rw [hk, List.take_succ_cons]
  exact List.mem_cons_self

/-- What the buffer has when `io_write` is called: `process_out` saw and counted all of it, or it is as
it was. -/
theorem see_out_cases (f : List UInt8 → List UInt8) (cx : baseHostCX octet) :
    (cx.meter_write_bytes + cx.writebuf_.length > cx.processed_out_total_ ∧
      (∀ b ∈ (cx.see_out (look f)).writebuf_, b.seen = true) ∧
      (cx.see_out (look f)).processed_out_total_ =
        cx.processed_out_total_ + (cx.see_out (look f)).writebuf_.length) ∨
    (cx.meter_write_bytes + cx.writebuf_.length ≤ cx.processed_out_total_ ∧
      (cx.see_out (look f)).writebuf_ = cx.writebuf_ ∧
      (cx.see_out (look f)).processed_out_total_ = cx.processed_out_total_) := by
  unfold baseHostCX.see_out
  by_cases hunseen : cx.meter_write_bytes + cx.writebuf_.length > cx.processed_out_total_
  · rw [if_pos hunseen]
    refine Or.inl ⟨hunseen, fun b hb => ?_, by simp only [look, List.length_map]⟩
    obtain ⟨v, -, rfl⟩ := List.mem_map.mp hb
    rfl
  · rw [if_neg hunseen]
    exact Or.inr ⟨by omega, rfl, rfl⟩

theorem look_whole (f : List UInt8 → List UInt8) : Whole (look f) := by
  intro b
  simp [look]

/-- A `write` waits, or it offers a buffer that `process_out` just saw, or the buffer as it is. -/
theorem write_looks {s s' : Stream octet} {f : List UInt8 → List UInt8} {peercom : Option Bool}
    {l : Int} (h : marked_step s ⟨.write peercom l, f⟩ = some s') :
    ((s.cx.write_waiting_for_peercom peercom).write_waiting_for_peercom_ = true ∧
      s' = { s with cx := s.cx.write_waiting_for_peercom peercom }) ∨
    ∃ (cx : baseHostCX octet) (data : List octet),
      (s.cx.write_waiting_for_peercom peercom).write_waiting_for_peercom_ = false ∧
      data = cx.writebuf_ ∧ l ≤ data.length ∧
      s' = { s with cx := cx.after_write l, txs := s.txs ++ [{ data, l }] } ∧
      cx.meter_write_bytes = s.cx.meter_write_bytes ∧
      ((s.cx.meter_write_bytes + s.cx.writebuf_.length > s.cx.processed_out_total_ ∧
          (∀ b ∈ data, b.seen = true) ∧
          cx.processed_out_total_ = s.cx.processed_out_total_ + data.length) ∨
        (s.cx.meter_write_bytes + s.cx.writebuf_.length ≤ s.cx.processed_out_total_ ∧
          data = s.cx.writebuf_ ∧ cx.processed_out_total_ = s.cx.processed_out_total_)) := by
  obtain ⟨hbuf, hmeter, htotal⟩ := s.cx.waiting_same peercom
  rcases write_cases (look_whole f) h with hwaits | ⟨cx, data, hcx, hw, hdata, hle, rfl⟩
  · exact Or.inl hwaits
  have hsee := see_out_cases f (s.cx.write_waiting_for_peercom peercom)
  rw [← hcx, hmeter, hbuf, htotal, ← hdata] at hsee
  refine Or.inr ⟨cx, data, hw, hdata, hle, rfl, ?_, hsee⟩
  rw [hcx, baseHostCX.see_out_meter, hmeter]

/-- A `write` keeps the order when, and only when, it looks first. -/
theorem write_sorted {s s' : Stream octet} {f : List UInt8 → List UInt8} {peercom : Option Bool}
    {l : Int} (hs : Sorted s) (h : marked_step s ⟨.write peercom l, f⟩ = some s') :
    (LooksFirst s ⟨.write peercom l, f⟩ → Sorted s') ∧
      (¬ LooksFirst s ⟨.write peercom l, f⟩ → ¬ Inspected s') := by
  obtain ⟨old, new, hsplit, hold, hnew⟩ := hs.sorted
  have hfresh : fresh s.cx = new.length := fresh_eq hsplit hold hnew
  have hlen : s.cx.writebuf_.length = old.length + new.length := by
    rw [hsplit, List.length_append]
  rcases write_looks h with
    ⟨hw, rfl⟩ | ⟨cx, data, hw, hdata, hle, rfl, -, ⟨hcall, hseen, -⟩ | ⟨hskip, hkeep, -⟩⟩
  · obtain ⟨hbuf, -, -⟩ := s.cx.waiting_same peercom
    refine ⟨fun _ => ⟨hs.inspected, old, new, hbuf.trans hsplit, hold, hnew⟩, fun hc => ?_⟩
    refine absurd (fun hf => ?_) hc
    rw [hw] at hf
    cases hf
  · -- all that is offered was just seen
    obtain ⟨hbuf', -, -⟩ := cx.after_write_spec l
    refine ⟨fun _ => ?_, fun hc => absurd (fun _ hf => absurd hcall (by omega)) hc⟩
    have hnil : data ++ [] = data := List.append_nil data
    rw [← hnil]
    apply tx_sorted hs.inspected hseen (fun b hb => by cases hb) (by omega)
    rw [hnil, hdata]
    exact hbuf'
  · obtain ⟨hbuf', -, -⟩ := cx.after_write_spec l
    have hdata' : data = old ++ new := hkeep.trans hsplit
    refine ⟨?_, ?_⟩
    · intro hc
      have hl := hc hw hskip
      rw [hfresh, hlen] at hl
      subst hdata'
      apply tx_sorted hs.inspected hold hnew (by omega)
      rw [hdata]
      exact hbuf'
    · intro hc hgood
      apply hc
      intro _ _
      rw [hfresh, hlen]
      by_contra hgt
      -- the first byte that was not seen is taken
      cases new with
      | nil =>
        rw [hdata', List.append_nil] at hle
        simp only [List.length_nil] at hgt
        omega
      | cons b rest =>
        have htaken : b ∈ tx.taken { data, l } := by
          rw [hdata']
          apply taken_behind
          simp only [List.length_cons] at hgt
          omega
        have hb := hgood _ (List.mem_append_right _ (List.mem_singleton_self _)) b htaken
        rw [hnew b List.mem_cons_self] at hb
        cases hb

/-- Any other call keeps the order. -/
theorem step_sorted {s s' : Stream octet} {a : act} (hs : Sorted s) (hc : LooksFirst s a)
    (h : marked_step s a = some s') : Sorted s' := by
  obtain ⟨c, f⟩ := a
  cases c with
  | to_write_buffer fast_copy_start b =>
    cases h
    refine append_sorted hs (b := b) ?_ _
    unfold baseHostCX.to_write_buffer
    split
    next hfast => simp [hfast.1]
    next => rfl
  | to_write_string b =>
    cases h
    exact append_sorted hs rfl _
  | to_write_ptr b l =>
    simp only [marked_step, call.map, step] at h
    split at h
    · cases h
    · cases h
      refine append_sorted hs (b := b.take l.toNat) ?_ _
      simp only [baseHostCX.to_write_ptr, List.map_take]
  | write peercom l => exact (write_sorted hs h).1 hc
  | write_waiting_for_peercom p =>
    cases h
    exact ⟨hs.inspected, hs.sorted⟩
  | close_after_write b =>
    cases h
    exact ⟨hs.inspected, hs.sorted⟩
  | opening b =>
    cases h
    exact ⟨hs.inspected, hs.sorted⟩

theorem step_blind {s s' : Stream octet} {a : act} (hs : Sorted s) (hc : ¬ LooksFirst s a)
    (h : marked_step s a = some s') : ¬ Inspected s' := by
  obtain ⟨c, f⟩ := a
  cases c with
  | write peercom l => exact (write_sorted hs h).2 hc
  | _ => exact absurd trivial hc

/-- Each byte that a run accepts was in the buffer during a call of `process_out` when, and only
when, each `write` that does not call it gets rid of none of the bytes that came after the last
call. -/
theorem written_bytes_were_inspected (fds : Int) (acts : List act) :
    Always marked_step Inspected (start fds) acts ↔
      Meets marked_step LooksFirst (start fds) acts :=
  always_iff_meets (fun _ h => h.inspected) (fun _ _ _ => step_sorted) (fun _ _ _ => step_blind)
    (start_sorted fds) acts

/-- One byte is offered in vain, then two, and then three are written: `process_out` counted one
and two, so the third is not shown to it. -/
def blocked_twice : List act :=
  [⟨.to_write_string [1], id⟩, ⟨.write none 0, id⟩, ⟨.to_write_string [2], id⟩, ⟨.write none 0, id⟩,
    ⟨.to_write_string [3], id⟩, ⟨.write none 3, id⟩]

theorem the_third_byte_is_not_inspected :
    ¬ ∀ (fds : Int) (acts : List act), Always marked_step Inspected (start fds) acts := by
  intro hall
  have hend : (exec marked_step (start 5) blocked_twice).map (fun s => decide (Inspected s)) =
      some false := by decide
  obtain ⟨s, hrun, hnot⟩ := Option.map_eq_some_iff.mp hend
  exact of_decide_eq_false hnot (always_exec (hall 5 blocked_twice) hrun)

/-! ## Bytes that are counted twice -/

/-- How far `processed_out_total_` is ahead of the bytes that `process_out` saw. -/
def counted_twice (cx : baseHostCX octet) : Int :=
  cx.processed_out_total_ - (cx.meter_write_bytes + cx.writebuf_.length - fresh cx)

/-- `process_out` is not called when at least as many bytes were counted twice as are new. -/
theorem skips_iff (cx : baseHostCX octet) :
    cx.meter_write_bytes + cx.writebuf_.length ≤ cx.processed_out_total_ ↔
      (fresh cx : Int) ≤ counted_twice cx := by
  unfold counted_twice
  omega

/-- A `write` that calls `process_out` counts those bytes again that an earlier one left. -/
theorem write_counts {s s' : Stream octet} {f : List UInt8 → List UInt8} {peercom : Option Bool}
    {l : Int} (hs : Sorted s) (hc : LooksFirst s ⟨.write peercom l, f⟩)
    (h : marked_step s ⟨.write peercom l, f⟩ = some s') :
    counted_twice s'.cx = counted_twice s.cx ∨
      ((s.cx.write_waiting_for_peercom peercom).write_waiting_for_peercom_ = false ∧
        counted_twice s.cx < fresh s.cx ∧
        counted_twice s'.cx = counted_twice s.cx + (s.cx.writebuf_.length - fresh s.cx)) := by
  have hskips := skips_iff s.cx
  rcases write_looks h with
    ⟨-, rfl⟩ | ⟨cx, data, hw, hdata, hle, rfl, hsame, ⟨hcall, hseen, hsum⟩ | ⟨hno, hkeep, hsum⟩⟩
  · obtain ⟨hbuf, hmeter, htotal⟩ := s.cx.waiting_same peercom
    left
    simp only [counted_twice, fresh, hbuf, hmeter, htotal]
  · -- all of the buffer was just seen
    obtain ⟨hbuf', hmeter', htotal'⟩ := cx.after_write_spec l
    rw [← hdata] at hbuf'
    have hzero : fresh (cx.after_write l) = 0 := by
      unfold fresh
      rw [hbuf', List.countP_eq_zero]
      intro b hb
      simp [hseen b (List.mem_of_mem_drop hb)]
    refine Or.inr ⟨hw, by omega, ?_⟩
    simp only [counted_twice, hzero, hbuf', List.length_drop, hmeter', htotal', hsum, hsame]
    omega
  · -- what is dropped was seen before
    left
    obtain ⟨hbuf', hmeter', htotal'⟩ := cx.after_write_spec l
    rw [← hdata, hkeep] at hbuf'
    have htaken := hc hw hno
    obtain ⟨old, new, hsplit, hold, hnew⟩ := hs.sorted
    have hfresh := fresh_eq hsplit hold hnew
    have hrest : fresh (cx.after_write l) = new.length := by
      rw [hfresh, hsplit, List.length_append] at htaken
      have hdrop : (cx.after_write l).writebuf_ = old.drop l.toNat ++ new := by
        rw [hbuf', hsplit]
        exact List.drop_append_of_le_length (by omega)
      exact fresh_eq hdrop (fun b hb => hold b (List.mem_of_mem_drop hb)) hnew
    simp only [counted_twice, hrest, hbuf', List.length_drop, hmeter', htotal', hsum, hsame, hfresh]
    omega

/-- What is given to the connection, and what it is told, is not counted. -/
theorem call_counts {s s' : Stream octet} {a : act} (ha : ∀ peercom l, a.call ≠ .write peercom l)
    (h : marked_step s a = some s') : counted_twice s'.cx = counted_twice s.cx := by
  have happend : ∀ (cx : baseHostCX octet) (b : List UInt8),
      cx.writebuf_ = s.cx.writebuf_ ++ b.map unseen → cx.meter_write_bytes = s.cx.meter_write_bytes →
      cx.processed_out_total_ = s.cx.processed_out_total_ → counted_twice cx = counted_twice s.cx := by
    intro cx b hbuf hmeter htotal
    have hfresh : fresh cx = fresh s.cx + b.length := by
      unfold fresh
      rw [hbuf, List.countP_append, List.countP_map]
      congr 1
      exact List.countP_eq_length.mpr fun _ _ => rfl
    unfold counted_twice
    rw [hfresh, hbuf, hmeter, htotal, List.length_append, List.length_map]
    omega
  obtain ⟨c, f⟩ := a
  cases c with
  | to_write_buffer fast_copy_start b =>
    cases h
    refine happend _ b ?_ ?_ ?_ <;> unfold baseHostCX.to_write_buffer <;> split
    next hfast => simp [hfast.1]
    all_goals rfl
  | to_write_string b =>
    cases h
    exact happend _ b rfl rfl rfl
  | to_write_ptr b l =>
    simp only [marked_step, call.map, step] at h
    split at h
    · cases h
    · cases h
      refine happend _ (b.take l.toNat) ?_ rfl rfl
      simp only [baseHostCX.to_write_ptr, List.map_take]
  | write peercom l => exact absurd rfl (ha peercom l)
  | write_waiting_for_peercom p | close_after_write p | opening p =>
    cases h
    rfl

/-- When no byte was counted twice, `process_out` is only passed over when nothing is new. -/
theorem looks_first_of_once {s s' : Stream octet} {f : List UInt8 → List UInt8}
    {peercom : Option Bool} {l : Int} (hzero : counted_twice s.cx = 0)
    (h : marked_step s ⟨.write peercom l, f⟩ = some s') : LooksFirst s ⟨.write peercom l, f⟩ := by
  intro hw hno
  have hnone : (fresh s.cx : Int) ≤ 0 := hzero ▸ (skips_iff s.cx).mp hno
  rcases write_looks h with
    ⟨hwait, -⟩ | ⟨cx, data, -, -, hle, -, -, ⟨hcall, -, -⟩ | ⟨-, hkeep, -⟩⟩
  · rw [hw] at hwait
    cases hwait
  · omega
  · rw [hkeep] at hle
    omega

/-- A `write` finds new bytes or bytes that an earlier one left, not both. -/
def Unmixed (s : Stream octet) (a : act) : Prop :=
  match a.call with
  | .write peercom _ =>
    (s.cx.write_waiting_for_peercom peercom).write_waiting_for_peercom_ = false →
      fresh s.cx = 0 ∨ fresh s.cx = s.cx.writebuf_.length
  | _ => True

/-- When nothing is given to the connection before all that a `write` left is written, no byte is
counted twice, and each byte that is accepted was in the buffer during a call of `process_out`. -/
theorem unmixed_runs_are_inspected (fds : Int) (acts : List act)
    (h : Meets marked_step Unmixed (start fds) acts) :
    Always marked_step Inspected (start fds) acts := by
  have honce : Always marked_step (fun s => Sorted s ∧ counted_twice s.cx = 0) (start fds) acts := by
    refine always_of_meets ?_ ⟨start_sorted fds, rfl⟩ h
    rintro s ⟨c, f⟩ s' ⟨hs, hzero⟩ hc hstep
    cases c with
    | write peercom l =>
      have hlook := looks_first_of_once hzero hstep
      refine ⟨step_sorted hs hlook hstep, ?_⟩
      rcases write_counts hs hlook hstep with hsame | ⟨hw, hless, hsum⟩
      · rw [hsame, hzero]
      · have hall := (hc hw).resolve_left (by omega)
        omega
    | _ =>
      refine ⟨step_sorted hs (by trivial) hstep, ?_⟩
      rw [call_counts (fun _ _ hwrite => by cases hwrite) hstep, hzero]
  exact honce.mono fun _ hs => hs.1.inspected

end socle.hostcx
