-- The write side of a connection (write and to_write of hostcx.cpp), with all
-- its exits. The code never reads a byte that it writes, so the bytes are of
-- any type.
import Mathlib.Tactic
import Socle.Lib.Run

namespace socle.hostcx

open lib.run

/-! ## Data -/

/-- The write side of a `baseHostCX`, and its two sockets. -/
structure baseHostCX (α : Type) where
  writebuf_ : List α := []
  meter_write_bytes : Nat := 0
  meter_write_count : UInt32 := 0
  processed_out_ : Nat := 0
  processed_out_total_ : Nat := 0
  write_waiting_for_peercom_ : Bool := false
  close_after_write_ : Bool := false
  opening_ : Bool := false
  rescan_out_flag_ : Bool := false
  error_ : Bool := false
  fds_ : Int := 0
  closing_fds_ : Int := 0

/-- A call of `io_write`: the bytes that it was offered, and what it returned. -/
structure tx (α : Type) where
  data : List α
  l : Int

/-- The bytes that the call accepted. -/
def tx.taken {α : Type} (t : tx α) : List α :=
  t.data.take t.l.toNat

variable {α : Type}

/-! ## Writing -/

/-- `buffer::flush(bytes)`. -/
def flush (bytes : Nat) (b : List α) : List α :=
  if bytes = 0 ∨ bytes ≥ b.length then [] else b.drop bytes

/-- `down_cast<int>(l).value_or(max_of<int>())`. -/
def down_cast (l : Int) : Int :=
  if l > 2 ^ 31 - 1 ∨ l < -2 ^ 31 then 2 ^ 31 - 1 else l

namespace baseHostCX

def shutdown (cx : baseHostCX α) : baseHostCX α :=
  if cx.fds_ ≠ 0 then { cx with closing_fds_ := cx.fds_, fds_ := 0 } else cx

/-- `write_waiting_for_peercom`. `peercom` is the status of the peer's com, if there is a peer. -/
def write_waiting_for_peercom (peercom : Option Bool) (cx : baseHostCX α) : baseHostCX α :=
  if cx.write_waiting_for_peercom_ then
    match peercom with
    | some com_status => { cx with write_waiting_for_peercom_ := !com_status }
    | none => { cx with error_ := true }
  else cx

/-- The default `process_out`: how many bytes it processed, and what it leaves in the buffer. -/
def process_out (b : List α) : Nat × List α :=
  (b.length, b)

/-- The part of `write` that lets `process_out` see the buffer. -/
def see_out (process_out : List α → Nat × List α) (cx : baseHostCX α) : baseHostCX α :=
  -- check for unseen data to be yet written
  if cx.meter_write_bytes + cx.writebuf_.length > cx.processed_out_total_ then
    { cx with
      processed_out_ := (process_out cx.writebuf_).1
      processed_out_total_ := cx.processed_out_total_ + (process_out cx.writebuf_).1
      writebuf_ := (process_out cx.writebuf_).2 }
  -- there are still data in buffer, but we have seen them all already
  else { cx with processed_out_ := cx.writebuf_.length }

/-- What `io_write` is offered. -/
def offer (cx : baseHostCX α) : List α :=
  cx.writebuf_.take (min cx.writebuf_.length cx.processed_out_)

/-- The part of `write` after `io_write`, which returned `l`. -/
def after_write (l : Int) (cx : baseHostCX α) : baseHostCX α :=
  if l > 0 then
    let cx := { cx with
      meter_write_bytes := cx.meter_write_bytes + l.toNat
      meter_write_count := cx.meter_write_count + 1
      opening_ := false
      -- there is a rest to write, or the write monitor is not needed any more
      rescan_out_flag_ := decide (l < cx.writebuf_.length)
      writebuf_ := flush l.toNat cx.writebuf_ }
    if cx.close_after_write_ ∧ cx.writebuf_ = [] then cx.shutdown else cx
  else if l = 0 ∧ cx.writebuf_ ≠ [] then { cx with rescan_out_flag_ := true }
  else cx

/-- `write`, with `io_write` that returns `l`: what it returns, the call of `io_write` if there is
one, and the connection. The default `pre_write` and `post_write` do nothing. -/
def write (process_out : List α → Nat × List α) (peercom : Option Bool) (l : Int)
    (cx : baseHostCX α) : Int × Option (tx α) × baseHostCX α :=
  let cx := cx.write_waiting_for_peercom peercom
  if cx.write_waiting_for_peercom_ then (0, none, cx)
  else
    let cx := cx.see_out process_out
    (down_cast l, some { data := cx.offer, l }, cx.after_write l)

/-! ## Appending -/

/-- `to_write(buffer& b)`: what is left in `b`, and the connection. -/
def to_write_buffer (fast_copy_start : Nat) (b : List α) (cx : baseHostCX α) :
    List α × baseHostCX α :=
  if cx.writebuf_ = [] ∧ cx.meter_write_bytes > fast_copy_start then
    -- fastlane: the buffers are swapped, and `b` is emptied
    ([], { cx with writebuf_ := b })
  else (b, { cx with writebuf_ := cx.writebuf_ ++ b })

/-- `to_write(const std::string& s)`. -/
def to_write_string (s : List α) (cx : baseHostCX α) : baseHostCX α :=
  { cx with writebuf_ := cx.writebuf_ ++ s }

/-- `to_write(unsigned char* c, unsigned int l)`, with the bytes at `c`. -/
def to_write_ptr (c : List α) (l : UInt32) (cx : baseHostCX α) : baseHostCX α :=
  { cx with writebuf_ := cx.writebuf_ ++ c.take l.toNat }

end baseHostCX

/-! ## Runs -/

inductive call (α : Type)
  | to_write_buffer (fast_copy_start : Nat) (b : List α)
  | to_write_string (s : List α)
  | to_write_ptr (c : List α) (l : UInt32)
  | write (peercom : Option Bool) (l : Int)
  -- the setters of the flags that `write` reads
  | write_waiting_for_peercom (p : Bool)
  | close_after_write (b : Bool)
  | opening (b : Bool)

/-- What the call appends to the stream. -/
def call.bytes : call α → List α
  | .to_write_buffer _ b => b
  | .to_write_string s => s
  | .to_write_ptr c l => c.take l.toNat
  | _ => []

/-- A connection, what it was given, and the calls of `io_write`. No function of the code reads
`given` and `txs`. -/
structure Stream (α : Type) where
  cx : baseHostCX α
  given : List α := []
  txs : List (tx α) := []

/-- The bytes that `io_write` accepted so far. -/
def Stream.accepted (s : Stream α) : List α :=
  s.txs.flatMap tx.taken

section
variable (process_out : List α → Nat × List α)

/-- `io_write` cannot take more than it is offered, and the pointer of a `to_write` is good for the
bytes that it says. -/
def step (s : Stream α) : call α → Option (Stream α)
  | .to_write_buffer fast_copy_start b =>
    some { s with cx := (s.cx.to_write_buffer fast_copy_start b).2, given := s.given ++ b }
  | .to_write_string st => some { s with cx := s.cx.to_write_string st, given := s.given ++ st }
  | .to_write_ptr c l =>
    if c.length < l.toNat then none
    else some { s with cx := s.cx.to_write_ptr c l, given := s.given ++ c.take l.toNat }
  | .write peercom l =>
    match s.cx.write process_out peercom l with
    | (_, none, cx) => some { s with cx }
    | (_, some t, cx) =>
      if l > t.data.length then none else some { s with cx, txs := s.txs ++ [t] }
  | .write_waiting_for_peercom p =>
    some { s with cx := { s.cx with write_waiting_for_peercom_ := p } }
  | .close_after_write b => some { s with cx := { s.cx with close_after_write_ := b } }
  | .opening b => some { s with cx := { s.cx with opening_ := b } }

end

/-- A new connection, with any socket. -/
def start (fds : Int) : Stream α where
  cx := { fds_ := fds }

/-! ## One write -/

theorem flush_drop {n : Nat} {b : List α} (hn : n ≠ 0) : flush n b = b.drop n := by
  unfold flush
  split
  next h =>
    rcases h with h | h
    · exact absurd h hn
    · rw [List.drop_eq_nil_of_le h]
  next => rfl

/-- A `process_out` that handles the whole buffer which it leaves. -/
def Whole (process_out : List α → Nat × List α) : Prop :=
  ∀ b, (process_out b).1 = (process_out b).2.length

theorem process_out_whole : Whole (baseHostCX.process_out (α := α)) :=
  fun _ => rfl

namespace baseHostCX

variable {process_out : List α → Nat × List α}

@[simp] theorem shutdown_writebuf (cx : baseHostCX α) : cx.shutdown.writebuf_ = cx.writebuf_ := by
  unfold shutdown
  split <;> rfl

@[simp] theorem shutdown_meter (cx : baseHostCX α) :
    cx.shutdown.meter_write_bytes = cx.meter_write_bytes := by
  unfold shutdown
  split <;> rfl

@[simp] theorem shutdown_total (cx : baseHostCX α) :
    cx.shutdown.processed_out_total_ = cx.processed_out_total_ := by
  unfold shutdown
  split <;> rfl

/-- Waiting for the peer touches no byte and no total. -/
theorem waiting_same (peercom : Option Bool) (cx : baseHostCX α) :
    (cx.write_waiting_for_peercom peercom).writebuf_ = cx.writebuf_ ∧
      (cx.write_waiting_for_peercom peercom).meter_write_bytes = cx.meter_write_bytes ∧
      (cx.write_waiting_for_peercom peercom).processed_out_total_ = cx.processed_out_total_ := by
  unfold write_waiting_for_peercom
  split
  · cases peercom <;> exact ⟨rfl, rfl, rfl⟩
  · exact ⟨rfl, rfl, rfl⟩

theorem see_out_meter (cx : baseHostCX α) :
    (cx.see_out process_out).meter_write_bytes = cx.meter_write_bytes := by
  unfold see_out
  split <;> rfl

/-- All that is in the buffer is offered. -/
theorem offer_all (hall : Whole process_out) (cx : baseHostCX α) :
    (cx.see_out process_out).offer = (cx.see_out process_out).writebuf_ := by
  have hout : (cx.see_out process_out).processed_out_ = (cx.see_out process_out).writebuf_.length := by
    unfold see_out
    split
    · exact hall cx.writebuf_
    · rfl
  unfold offer
  rw [hout, Nat.min_self, List.take_length]

theorem after_write_spec (l : Int) (cx : baseHostCX α) :
    (cx.after_write l).writebuf_ = cx.writebuf_.drop l.toNat ∧
      (cx.after_write l).meter_write_bytes = cx.meter_write_bytes + l.toNat ∧
      (cx.after_write l).processed_out_total_ = cx.processed_out_total_ := by
  unfold after_write
  by_cases hl : l > 0
  · have hne : l.toNat ≠ 0 := by omega
    simp only [if_pos hl, flush_drop hne]
    split
    · simp only [shutdown_writebuf, shutdown_meter, shutdown_total, and_self]
    · simp only [and_self]
  · have hzero : l.toNat = 0 := by omega
    simp only [if_neg hl, hzero, List.drop_zero, Nat.add_zero]
    split <;> exact ⟨rfl, rfl, rfl⟩

end baseHostCX

/-! ## Each run -/

/-- The offers and the bytes are those of one stream. -/
structure Intact (s : Stream α) : Prop where
  /-- What was accepted, and then what is in the buffer, is what was given. -/
  order : s.accepted ++ s.cx.writebuf_ = s.given
  meter : s.cx.meter_write_bytes = s.accepted.length
  /-- After a call that accepted nothing, the next offer starts with the same bytes. -/
  retry : ∀ before t between t' after, s.txs = before ++ t :: (between ++ t' :: after) → t.l ≤ 0 →
    (∀ u ∈ between, u.data = []) → t'.data ≠ [] →
    t.data <+: t'.data ∧ t.data.length ≤ t'.data.length

/-- What was offered in vain is offered again. -/
def Retries (t t' : tx α) : Prop :=
  t.l ≤ 0 → t.data <+: t'.data

/-- The invariant: what was offered in vain last is still in front of the buffer. -/
structure Inv (s : Stream α) : Prop where
  order : s.accepted ++ s.cx.writebuf_ = s.given
  meter : s.cx.meter_write_bytes = s.accepted.length
  chain : s.txs.IsChain Retries
  last : ∀ t ∈ s.txs.getLast?, t.l ≤ 0 → t.data <+: s.cx.writebuf_

theorem chain_retries {t t' : tx α} {between after : List (tx α)}
    (h : (t :: (between ++ t' :: after)).IsChain Retries) (ht : t.l ≤ 0)
    (hempty : ∀ u ∈ between, u.data = []) : t.data <+: t'.data := by
  cases between with
  | nil =>
    rw [List.nil_append, List.isChain_cons_cons] at h
    exact h.1 ht
  | cons u rest =>
    rw [List.cons_append, List.isChain_cons_cons] at h
    have hu : t.data <+: u.data := h.1 ht
    rw [hempty u List.mem_cons_self, List.prefix_nil] at hu
    rw [hu]
    exact List.nil_prefix

theorem Inv.intact {s : Stream α} (h : Inv s) : Intact s where
  order := h.order
  meter := h.meter
  retry := by
    intro before t between t' after heq ht hempty _
    have hchain := h.chain
    rw [heq] at hchain
    have hpre : t.data <+: t'.data :=
      chain_retries (List.isChain_append.mp hchain).2.1 ht hempty
    exact ⟨hpre, hpre.length_le⟩

theorem start_inv (fds : Int) : Inv (start (α := α) fds) where
  order := rfl
  meter := rfl
  chain := List.IsChain.nil
  last := fun t ht _ => by cases ht

/-- More bytes at the end of the buffer. -/
theorem append_inv {s : Stream α} (h : Inv s) {cx : baseHostCX α} {b : List α}
    (hbuf : cx.writebuf_ = s.cx.writebuf_ ++ b)
    (hmeter : cx.meter_write_bytes = s.cx.meter_write_bytes) :
    Inv { s with cx, given := s.given ++ b } where
  order := by
    change s.accepted ++ cx.writebuf_ = s.given ++ b
    rw [hbuf, ← List.append_assoc, h.order]
  meter := hmeter.trans h.meter
  chain := h.chain
  last := by
    intro t ht hl
    rw [hbuf]
    exact (h.last t ht hl).trans (List.prefix_append _ _)

/-- A call of `io_write` that is offered all that is in the buffer. -/
theorem tx_inv {s : Stream α} (h : Inv s) {cx : baseHostCX α} {l : Int}
    (hl : l ≤ s.cx.writebuf_.length) (hbuf : cx.writebuf_ = s.cx.writebuf_.drop l.toNat)
    (hmeter : cx.meter_write_bytes = s.cx.meter_write_bytes + l.toNat) :
    Inv { s with cx, txs := s.txs ++ [{ data := s.cx.writebuf_, l }] } := by
  have haccepted : Stream.accepted { s with cx, txs := s.txs ++ [{ data := s.cx.writebuf_, l }] } =
      s.accepted ++ s.cx.writebuf_.take l.toNat := by
    simp [Stream.accepted, tx.taken]
  constructor
  · rw [haccepted, List.append_assoc, hbuf, List.take_append_drop]
    exact h.order
  · have hlen : l.toNat ≤ s.cx.writebuf_.length := by omega
    rw [haccepted, List.length_append, List.length_take, Nat.min_eq_left hlen, ← h.meter]
    exact hmeter
  · apply h.chain.append (List.isChain_singleton _)
    intro t ht t' ht' hneg
    simp only [List.head?_cons, Option.mem_some_iff] at ht'
    subst ht'
    exact h.last t ht hneg
  · intro t ht hneg
    simp only [List.getLast?_append, List.getLast?_singleton, Option.some_or,
      Option.mem_some_iff] at ht
    subst ht
    have hzero : l.toNat = 0 := by
      simp only at hneg
      omega
    rw [hbuf, hzero, List.drop_zero]

/-- What a `write` does. -/
theorem write_cases {process_out : List α → Nat × List α} (hall : Whole process_out)
    {s s' : Stream α} {peercom : Option Bool} {l : Int}
    (h : step process_out s (.write peercom l) = some s') :
    ((s.cx.write_waiting_for_peercom peercom).write_waiting_for_peercom_ = true ∧
      s' = { s with cx := s.cx.write_waiting_for_peercom peercom }) ∨
    ∃ cx data, cx = (s.cx.write_waiting_for_peercom peercom).see_out process_out ∧
      (s.cx.write_waiting_for_peercom peercom).write_waiting_for_peercom_ = false ∧
      data = cx.writebuf_ ∧ l ≤ data.length ∧
      s' = { s with cx := cx.after_write l, txs := s.txs ++ [{ data, l }] } := by
  cases hw : (s.cx.write_waiting_for_peercom peercom).write_waiting_for_peercom_ with
  | true =>
    simp only [step, baseHostCX.write, hw, if_true, Option.some.injEq] at h
    exact Or.inl ⟨rfl, h.symm⟩
  | false =>
    simp only [step, baseHostCX.write, hw, Bool.false_eq_true, if_false,
      baseHostCX.offer_all hall] at h
    split at h
    · cases h
    next hle =>
      rw [Option.some.injEq] at h
      exact Or.inr ⟨_, _, rfl, rfl, rfl, by omega, h.symm⟩

theorem step_inv {s s' : Stream α} {c : call α} (hs : Inv s)
    (h : step baseHostCX.process_out s c = some s') : Inv s' := by
  cases c with
  | to_write_buffer fast_copy_start b =>
    cases h
    apply append_inv hs
    · unfold baseHostCX.to_write_buffer
      split
      next hfast => simp [hfast.1]
      next => rfl
    · unfold baseHostCX.to_write_buffer
      split <;> rfl
  | to_write_string b =>
    cases h
    exact append_inv hs rfl rfl
  | to_write_ptr c l =>
    simp only [step] at h
    split at h
    · cases h
    · cases h
      exact append_inv hs rfl rfl
  | write peercom l =>
    obtain ⟨hbuf, hmeter, -⟩ := s.cx.waiting_same peercom
    rcases write_cases process_out_whole h with ⟨-, rfl⟩ | ⟨cx, data, hcx, -, hdata, hle, rfl⟩
    · exact ⟨by rw [hbuf]; exact hs.order, hmeter.trans hs.meter, hs.chain,
        by rw [hbuf]; exact hs.last⟩
    · have hsame : cx.writebuf_ = s.cx.writebuf_ := by
        rw [hcx, ← hbuf]
        unfold baseHostCX.see_out
        split <;> rfl
      obtain ⟨hbuf', hmeter', -⟩ := cx.after_write_spec l
      have hm : cx.meter_write_bytes = s.cx.meter_write_bytes := by
        rw [hcx, baseHostCX.see_out_meter, hmeter]
      rw [hsame] at hbuf' hdata
      rw [hm] at hmeter'
      subst hdata
      exact tx_inv hs hle hbuf' hmeter'
  | write_waiting_for_peercom p =>
    cases h
    exact ⟨hs.order, hs.meter, hs.chain, hs.last⟩
  | close_after_write b =>
    cases h
    exact ⟨hs.order, hs.meter, hs.chain, hs.last⟩
  | opening b =>
    cases h
    exact ⟨hs.order, hs.meter, hs.chain, hs.last⟩

/-- In each state of each run, what was accepted and what is in the buffer is what was given, in
order, the meter tells how much was accepted, and what was offered in vain is offered again. -/
theorem the_stream_stays_intact (fds : Int) (calls : List (call α)) :
    Always (step baseHostCX.process_out) Intact (start fds) calls :=
  (always_of_step (fun _ _ _ hs h => step_inv hs h) (start_inv fds) calls).mono
    fun _ h => h.intact

end socle.hostcx
