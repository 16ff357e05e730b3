-- Writing bytes that are to be encrypted (sslcom.tpp: write). A call gives
-- OpenSSL up to 20480 bytes of the write buffer. When it takes none of them, the
-- next call has to begin with the same bytes, and what is behind them may grow.
import Mathlib.Tactic
import Socle.SslRead
import Socle.WriteStream

namespace socle.tls

open lib.run
open hostcx (tx Retries)

/-! ## What OpenSSL and the socket give -/

structure write_result where
  ret : Int
  err : Int

/-- What the calls in one `write` meet: `SSL_write` of some bytes, the `write` of the com below, and
the time. None of them takes more than it is given. OpenSSL has no error when, and only when, it
took something. -/
structure write_inputs where
  SSL_write : List UInt8 → write_result
  l4_write : List UInt8 → Int
  now : timeval
  none_iff : ∀ b, (SSL_write b).err = SSL_ERROR_NONE ↔ 0 < (SSL_write b).ret
  ssl_honest : ∀ b, (SSL_write b).ret ≤ b.length
  l4_honest : ∀ b, l4_write b ≤ b.length

/-- What carries the bytes: OpenSSL, or the com below it as they are. -/
inductive layer
  | ssl | l4
deriving DecidableEq, Repr

/-! ## The com -/

/-- What `write` asks the poller for. -/
inductive write_poll_call
  | modify_in | modify_in_out | rescan_write | set_write_monitor | rescan_read | set_monitor
deriving DecidableEq, Repr

/-- What `write` works with. The timers and the error flag are those of `read`. -/
structure writing_com extends reading_com where
  forced_write_on_read_ : Bool := false
  sslcom_write_blocked_on_read : Bool := false
  sslcom_write_blocked_on_write : Bool := false
  write_want_read_cur : Nat := 0
  write_want_write_cur : Nat := 0
  write_calls : List write_poll_call := []

/-- In ms. -/
def SSLCOM_WRITE_TIMEOUT : Int := 60 * 1000

/-- The size of a chunk. -/
def normalized : Nat := 20480

namespace writing_com

variable (c : writing_com)

def write_call (p : write_poll_call) : writing_com :=
  { c with write_calls := c.write_calls ++ [p] }

def set_com (com : SSLCom) : writing_com :=
  { c with com }

/-- SSL_ERROR_NONE. -/
def written_some (now : timeval) : writing_com :=
  let c :=
    if c.sslcom_write_blocked_on_read then
      { c with sslcom_write_blocked_on_read := false, forced_write_on_read_ := false }
    else c
  let c :=
    if c.sslcom_write_blocked_on_write then
      { c with sslcom_write_blocked_on_write := false }.write_call .modify_in
    else c
  -- reset IO timeouts, reset rescan counters
  { c with
    timer_read_timeout := now
    timer_write_timeout := now
    write_want_read_cur := 0
    write_want_write_cur := 0 }

/-- SSL_ERROR_WANT_WRITE. -/
def write_wants_write : writing_com :=
  let c := { c with sslcom_write_blocked_on_write := true }.write_call .modify_in_out
  if c.write_want_write_cur + 1 > rescan_threshold_write then
    { c with write_want_write_cur := 0 }.write_call .rescan_write
  else { c with write_want_write_cur := c.write_want_write_cur + 1 }.write_call .set_write_monitor

/-- SSL_ERROR_WANT_READ. -/
def write_wants_read : writing_com :=
  let c := { c with sslcom_write_blocked_on_read := true, forced_write_on_read_ := true }
  if c.write_want_read_cur + 1 > rescan_threshold_read then
    { c with write_want_read_cur := 0 }.write_call .rescan_read
  else { c with write_want_read_cur := c.write_want_read_cur + 1 }.write_call .set_monitor

/-- All cases of the switch but SSL_ERROR_NONE, and the timeout behind it. -/
def written_none (err : Int) (now : timeval) : writing_com :=
  let c :=
    if err = SSL_ERROR_WANT_WRITE then c.write_wants_write
    else if err = SSL_ERROR_WANT_READ then c.write_wants_read
    else c
  if timeval_msdelta now c.timer_write_timeout > SSLCOM_WRITE_TIMEOUT then
    -- error(ERROR_WRITE)
    { c with error_ := true }
  else c

end writing_com

/-! ## Writing -/

/-- `write` once the handshake is over: what it returns, and the call of `SSL_write` if there is
one. -/
def write_ssl (e : write_inputs) (buf : List UInt8) (c : writing_com) :
    Int × Option (layer × tx UInt8) × writing_com :=
  let c := { c with sslcom_write_blocked_on_read := false }
  let normalized__n := if buf.length < normalized then buf.length else normalized
  if buf.length ≤ 0 then (0, none, c)
  else
    let data := buf.take normalized__n
    let r := e.SSL_write data
    let c := if r.ret ≥ normalized__n then c.set_com (c.com.force false true) else c
    let t := some (layer.ssl, { data, l := r.ret })
    if r.err = SSL_ERROR_NONE then (r.ret, t, c.written_some e.now)
    else (0, t, c.written_none r.err e.now)

/-- `L4Proto::write`. -/
def write_l4 (e : write_inputs) (buf : List UInt8) (c : writing_com) :
    Int × Option (layer × tx UInt8) × writing_com :=
  (e.l4_write buf, some (.l4, { data := buf, l := e.l4_write buf }), c)

def writing_com.write (i : inputs) (e : write_inputs) (buf : List UInt8) (c : writing_com) :
    Int × Option (layer × tx UInt8) × writing_com :=
  if c.com.bypass then write_l4 e buf c
  -- non-blocking socket can be still opening
  else if c.com.sslcom_waiting then
    match handshake i c.com with
    | (.AGAIN, com) =>
      if com.bypass then write_l4 e buf (c.set_com com) else (0, none, c.set_com com)
    | (.ERROR, com) => (-1, none, c.set_com com)
    | (.FATAL, com) => (-1, none, c.set_com { com with sslcom_fatal := true })
    -- if we were waiting, force next round of write
    | (_, com) => write_ssl e buf (c.set_com (com.force false true).monitor_peer)
  else write_ssl e buf c

/-- The layer that a `read` comes to. -/
def read_layer (i : inputs) (com : SSLCom) : Option layer :=
  if com.bypass then some .l4
  else if com.sslcom_waiting then
    match handshake i com with
    | (.AGAIN, com) => if com.bypass then some .l4 else none
    | (.ERROR, _) | (.FATAL, _) => none
    | (_, _) => some .ssl
  else some .ssl

/-! ## Runs -/

/-- A context over the com: its stream of writes, the calls of each layer, and the bytes that were
read or peeked. No function of the code reads `txs` and `rxs`. -/
structure tls_stream where
  stream : hostcx.Stream UInt8
  com : writing_com
  txs : List (layer × tx UInt8) := []
  rxs : List (layer × List UInt8) := []

inductive tls_action
  -- a call of the context that does not write
  | call (c : hostcx.call UInt8)
  | write (peercom : Option Bool) (i : inputs) (e : write_inputs)
  -- `peek` is a `read` with MSG_PEEK
  | read (i : inputs) (e : ssl_inputs) (n : Nat)
  -- the com on the other side bypassed this one
  | bypassed

/-- A step of the context. -/
def cx_step : hostcx.Stream UInt8 → hostcx.call UInt8 → Option (hostcx.Stream UInt8) :=
  hostcx.step hostcx.baseHostCX.process_out

namespace tls_stream

variable (s : tls_stream)

/-- `baseHostCX::write` with the com's `write` as `io_write`. -/
def write (peercom : Option Bool) (i : inputs) (e : write_inputs) : Option tls_stream :=
  let cx := s.stream.cx.write_waiting_for_peercom peercom
  if cx.write_waiting_for_peercom_ then
    (cx_step s.stream (.write peercom 0)).map fun stream => { s with stream }
  else
    let (l, t, com) := s.com.write i e (cx.see_out hostcx.baseHostCX.process_out).offer
    (cx_step s.stream (.write peercom l)).map fun stream =>
      { s with stream, com, txs := s.txs ++ t.toList }

/-- A `read` of the com. -/
def read (i : inputs) (e : ssl_inputs) (n : Nat) : Option tls_stream :=
  (s.com.toreading_com.read i e n).map fun r =>
    { s with
      com := { s.com with toreading_com := r.2 }
      rxs := s.rxs ++ ((read_layer i s.com.com).map fun l =>
        (l, r.2.written.flatMap Prod.snd)).toList }

/-- `speer->opt.bypass = true`. -/
def bypass : tls_stream :=
  { s with com := s.com.set_com { s.com.com with bypass := true } }

def step : tls_action → Option tls_stream
  | .call (.write _ _) => none
  | .call c => (cx_step s.stream c).map fun stream => { s with stream }
  | .write peercom i e => s.write peercom i e
  | .read i e n => s.read i e n
  | .bypassed => some s.bypass

/-- The writes that the layer was given. -/
def calls (l : layer) : List (tx UInt8) :=
  s.txs.filterMap fun t => if t.1 = l then some t.2 else none

/-- The bytes that the layer took. -/
def taken (l : layer) : List UInt8 :=
  (s.calls l).flatMap tx.taken

/-- Some bytes were to go, or came, through the layer. -/
def used (l : layer) : Bool :=
  s.txs.any (·.1 = l) || s.rxs.any (·.1 = l)

end tls_stream

/-- A context over a com through which nothing went so far. -/
def tls_stream.start (fds : Int) (com : SSLCom) : tls_stream where
  stream := hostcx.start fds
  com := { com }

/-! ## The law -/

/-- Nothing is lost between the context and OpenSSL, and `SSL_write` is called as it must be. -/
structure Carried (s : tls_stream) : Prop where
  stream : hostcx.Intact s.stream
  /-- What the context counts as written went through TLS, and what came after a bypass did not. -/
  passed : s.stream.accepted = s.taken .ssl ++ s.taken .l4
  /-- After a call of `SSL_write` that took nothing, the next one begins with the same bytes. -/
  retry : (s.calls .ssl).IsChain Retries
  chunks : ∀ t ∈ s.calls .ssl, t.data ≠ [] ∧ t.data.length ≤ normalized
  /-- Once something went beside TLS, the com is bypassed, and stays so. -/
  once_bypassed : s.used .l4 = true → s.com.com.bypass = true

/-! ## What a call leaves of the com -/

/-- The two flags that choose the layer are the same. -/
structure Same (com com' : SSLCom) : Prop where
  bypass : com'.bypass = com.bypass
  waiting : com'.sslcom_waiting = com.sslcom_waiting

theorem Same.refl (com : SSLCom) : Same com com := ⟨rfl, rfl⟩

theorem Same.trans {a b c : SSLCom} (h : Same a b) (h' : Same b c) : Same a c :=
  ⟨h'.bypass.trans h.bypass, h'.waiting.trans h.waiting⟩

theorem Same.force (com : SSLCom) (r w : Bool) : Same com (com.force r w) := ⟨rfl, rfl⟩

theorem Same.fatal (com : SSLCom) : Same com { com with sslcom_fatal := true } := ⟨rfl, rfl⟩

/-- The handshake is over, or it does not matter. -/
def Settled (com : SSLCom) : Prop :=
  com.bypass = true ∨ com.sslcom_waiting = false

theorem handshake_result_cases (i : inputs) (com : SSLCom) :
    (handshake i com).1 = .AGAIN ∨ (handshake i com).1 = .ERROR ∨ (handshake i com).1 = .FATAL := by
  obtain ⟨hsuccess, hbypass⟩ := handshake_not_success i com
  cases h : (handshake i com).1 with
  | FATAL => exact Or.inr (Or.inr rfl)
  | ERROR => exact Or.inr (Or.inl rfl)
  | AGAIN => exact Or.inl rfl
  | SUCCESS => exact absurd h hsuccess
  | BYPASS => exact absurd h hbypass

section
variable (c : reading_com) (now : timeval)

@[simp] theorem want_read_com : c.want_read.com = c.com := by
  unfold reading_com.want_read
  split <;> rfl

@[simp] theorem want_write_com : c.want_write.com = c.com := by
  unfold reading_com.want_write
  simp only
  split <;> rfl

@[simp] theorem round_done_com : (c.round_done now).com = c.com := by
  unfold reading_com.round_done
  simp only
  split <;> rfl

theorem round_failed_same (r : read_result) (total_r : Nat) :
    Same c.com (round_failed r total_r now c).2.com := by
  unfold round_failed
  simp only
  repeat' split
  all_goals simp [reading_com.error_read, reading_com.fatal, Same.refl, Same.fatal]

end

section
variable {i : inputs} {n : Nat} {r : Int × reading_com}

theorem read_rounds_same (e : ssl_inputs) (fuel k total_r : Nat) (c : reading_com)
    (h : read_rounds e n fuel k total_r c = some r) : Same c.com r.2.com := by
  induction fuel generalizing k total_r c with
  | zero => cases h
  | succ fuel ih =>
    simp only [read_rounds] at h
    split at h
    · obtain rfl := Option.some.inj h
      exact Same.force _ _ _
    split at h
    · split at h
      · have hnext := ih _ _ _ h
        rw [round_done_com] at hnext
        exact hnext
      · obtain rfl := Option.some.inj h
        simp only [round_done_com]
        exact Same.refl _
    · obtain rfl := Option.some.inj h
      apply Same.trans (b := (c.put total_r _).com) (Same.refl c.com)
      exact round_failed_same (c.put total_r _) _ _ _

theorem read_ssl_same {e : ssl_inputs} {c : reading_com} (h : read_ssl e n c = some r) :
    Same c.com r.2.com := by
  unfold read_ssl at h
  split at h
  · obtain rfl := Option.some.inj h
    exact Same.refl _
  · exact read_rounds_same e _ _ _ _ h

/-- What a `read` does to the com, by the layer it comes to. -/
theorem read_spec {e : ssl_inputs} {c : reading_com} (h : c.read i e n = some r) :
    (Settled c.com → Same c.com r.2.com) ∧
      (read_layer i c.com = some .l4 → r.2.com.bypass = true) ∧
      (read_layer i c.com = some .ssl → c.com.bypass = false ∧ c.com.sslcom_waiting = false) := by
  unfold reading_com.read at h
  unfold read_layer
  cases hbypass : c.com.bypass with
  | true =>
    simp only [hbypass, if_true, read_l4, Option.some.injEq] at h
    subst h
    exact ⟨fun _ => Same.refl _, fun _ => hbypass, by simp⟩
  | false =>
    simp only [hbypass, Bool.false_eq_true, if_false] at h ⊢
    cases hwaiting : c.com.sslcom_waiting with
    | false =>
      simp only [hwaiting, Bool.false_eq_true, if_false] at h ⊢
      exact ⟨fun _ => read_ssl_same (c := { c with written := [] }) h, by simp, by simp⟩
    | true =>
      simp only [hwaiting, if_true] at h ⊢
      have hsettled : ¬ Settled c.com := by simp [Settled, hbypass, hwaiting]
      refine ⟨fun hs => absurd hs hsettled, ?_⟩
      -- a handshake ends in AGAIN, ERROR or FATAL, and only AGAIN may come to a layer
      have hcases := handshake_result_cases i c.com
      generalize handshake i c.com = hs at h hcases ⊢
      obtain ⟨res, com⟩ := hs
      rcases hcases with rfl | rfl | rfl
      · simp only at h ⊢
        cases hb : com.bypass with
        | true =>
          simp only [hb, if_true, read_l4, Option.some.injEq] at h
          subst h
          exact ⟨fun _ => hb, by simp⟩
        | false => simp
      · simp
      · simp

end

section
variable (c : writing_com) (now : timeval)

@[simp] theorem written_some_com : (c.written_some now).com = c.com := by
  unfold writing_com.written_some
  simp only
  repeat' split
  all_goals rfl

theorem written_none_com (err : Int) : (c.written_none err now).com = c.com := by
  unfold writing_com.written_none writing_com.write_wants_write writing_com.write_wants_read
  simp only
  repeat' split
  all_goals rfl

end

/-- What a `write` of `buf` did that returned `l`: the call of a layer, and the com that is left. -/
inductive Wrote (com : SSLCom) (buf : List UInt8) (l : Int) :
    Option (layer × tx UInt8) → SSLCom → Prop
  | beside {com'} (hbypass : com'.bypass = true) (hl : l ≤ buf.length) :
      Wrote com buf l (some (.l4, { data := buf, l })) com'
  | nothing {com'} (hl : l ≤ 0) : Wrote com buf l none com'
  | carried {com' l'} (hbypass : com.bypass = false) (hwaiting : com.sslcom_waiting = false)
      (hbuf : buf ≠ []) (hl : l = max l' 0) (hle : l' ≤ (buf.take normalized).length) :
      Wrote com buf l (some (.ssl, { data := buf.take normalized, l := l' })) com'

section
variable {i : inputs} {e : write_inputs} {buf : List UInt8} {c : writing_com}

theorem write_ssl_same : Same c.com (write_ssl e buf c).2.2.com := by
  unfold write_ssl
  simp only
  repeat' split
  all_goals
    simp [written_none_com, writing_com.set_com, Same.refl, Same.force]

theorem write_ssl_wrote (hbypass : c.com.bypass = false) (hwaiting : c.com.sslcom_waiting = false) :
    Wrote c.com buf (write_ssl e buf c).1 (write_ssl e buf c).2.1 (write_ssl e buf c).2.2.com := by
  have htake : buf.take (if buf.length < normalized then buf.length else normalized) =
      buf.take normalized := by
    split
    · next hlt => rw [List.take_length, List.take_of_length_le hlt.le]
    · rfl
  unfold write_ssl
  simp only [htake]
  split
  · exact Wrote.nothing (le_refl 0)
  next hbuf =>
    have hne : buf ≠ [] := by
      rintro rfl
      simp at hbuf
    have hnone := e.none_iff (buf.take normalized)
    have hle := e.ssl_honest (buf.take normalized)
    split
    · next herr =>
      have hpos := hnone.mp herr
      exact Wrote.carried hbypass hwaiting hne (by omega) hle
    · next herr =>
      have hneg : ¬ 0 < (e.SSL_write (buf.take normalized)).ret := fun hpos => herr (hnone.mpr hpos)
      exact Wrote.carried hbypass hwaiting hne (by omega) hle

theorem write_same (h : Settled c.com) : Same c.com (c.write i e buf).2.2.com := by
  unfold writing_com.write
  rcases h with hbypass | hwaiting
  · simp only [hbypass, if_true]
    exact Same.refl _
  · split
    · exact Same.refl _
    · simp only [hwaiting, Bool.false_eq_true, if_false]
      exact write_ssl_same

theorem write_wrote :
    Wrote c.com buf (c.write i e buf).1 (c.write i e buf).2.1 (c.write i e buf).2.2.com := by
  unfold writing_com.write
  cases hbypass : c.com.bypass with
  | true =>
    simp only [if_true]
    exact Wrote.beside hbypass (e.l4_honest buf)
  | false =>
    simp only [Bool.false_eq_true, if_false]
    cases hwaiting : c.com.sslcom_waiting with
    | false =>
      simp only [Bool.false_eq_true, if_false]
      exact write_ssl_wrote hbypass hwaiting
    | true =>
      simp only [if_true]
      have hcases := handshake_result_cases i c.com
      generalize handshake i c.com = hs at hcases ⊢
      obtain ⟨res, com⟩ := hs
      rcases hcases with rfl | rfl | rfl
      · simp only
        split
        · next hb => exact Wrote.beside hb (e.l4_honest buf)
        · exact Wrote.nothing (le_refl 0)
      · exact Wrote.nothing (l := -1) (by decide)
      · exact Wrote.nothing (l := -1) (by decide)

end

/-! ## What a step of the context does -/

section
variable {st st' : hostcx.Stream UInt8} {peercom : Option Bool} {l : Int}

/-- A call that does not write is not seen by the com, and puts bytes behind those in the buffer. -/
theorem cx_call {c : hostcx.call UInt8} (hc : ∀ peercom l, c ≠ .write peercom l)
    (h : cx_step st c = some st') :
    st'.txs = st.txs ∧ st.cx.writebuf_ <+: st'.cx.writebuf_ := by
  cases c with
  | to_write_buffer fast_copy_start b =>
    obtain rfl := Option.some.inj h
    refine ⟨rfl, ?_⟩
    simp only [hostcx.baseHostCX.to_write_buffer]
    split
    · next hfast => simp [hfast.1]
    · exact List.prefix_append _ _
  | to_write_string b =>
    obtain rfl := Option.some.inj h
    exact ⟨rfl, List.prefix_append _ _⟩
  | to_write_ptr c n =>
    simp only [cx_step, hostcx.step] at h
    split at h
    · cases h
    · obtain rfl := Option.some.inj h
      exact ⟨rfl, List.prefix_append _ _⟩
  | write peercom l => exact absurd rfl (hc peercom l)
  | write_waiting_for_peercom p =>
    obtain rfl := Option.some.inj h
    exact ⟨rfl, List.prefix_refl _⟩
  | close_after_write b =>
    obtain rfl := Option.some.inj h
    exact ⟨rfl, List.prefix_refl _⟩
  | opening b =>
    obtain rfl := Option.some.inj h
    exact ⟨rfl, List.prefix_refl _⟩

theorem see_out_writebuf (cx : hostcx.baseHostCX UInt8) (peercom : Option Bool) :
    ((cx.write_waiting_for_peercom peercom).see_out
      hostcx.baseHostCX.process_out).writebuf_ = cx.writebuf_ := by
  rw [← (cx.waiting_same peercom).1]
  unfold hostcx.baseHostCX.see_out
  split <;> rfl

/-- All that is in the buffer is offered. -/
theorem offer_writebuf (cx : hostcx.baseHostCX UInt8) (peercom : Option Bool) :
    ((cx.write_waiting_for_peercom peercom).see_out hostcx.baseHostCX.process_out).offer =
      cx.writebuf_ := by
  rw [hostcx.baseHostCX.offer_all hostcx.process_out_whole, see_out_writebuf]

/-- The context waits for the com of its peer. -/
theorem cx_wait
    (hwait : (st.cx.write_waiting_for_peercom peercom).write_waiting_for_peercom_ = true)
    (h : cx_step st (.write peercom l) = some st') :
    st'.txs = st.txs ∧ st'.cx.writebuf_ = st.cx.writebuf_ := by
  rcases hostcx.write_cases hostcx.process_out_whole h with ⟨-, rfl⟩ | ⟨_, _, -, hnot, -⟩
  · exact ⟨rfl, (st.cx.waiting_same peercom).1⟩
  · rw [hwait] at hnot
    cases hnot

/-- The context offered its buffer, of which `l` bytes were taken. -/
theorem cx_write
    (hwait : (st.cx.write_waiting_for_peercom peercom).write_waiting_for_peercom_ = false)
    (h : cx_step st (.write peercom l) = some st') :
    st'.txs = st.txs ++ [{ data := st.cx.writebuf_, l }] ∧
      st'.cx.writebuf_ = st.cx.writebuf_.drop l.toNat := by
  rcases hostcx.write_cases hostcx.process_out_whole h with
    ⟨hin, -⟩ | ⟨cx, data, hcx, -, hdata, -, rfl⟩
  · rw [hwait] at hin
    cases hin
  · have hbuf : cx.writebuf_ = st.cx.writebuf_ := by
      rw [hcx]
      exact see_out_writebuf st.cx peercom
    have hdrop := (cx.after_write_spec l).1
    rw [hbuf] at hdrop hdata
    subst hdata
    exact ⟨rfl, hdrop⟩

end

section
variable {s : tls_stream} {k : layer} {t : tx UInt8}

theorem calls_append {st : hostcx.Stream UInt8} {com : writing_com} (l : layer) :
    tls_stream.calls { s with stream := st, com, txs := s.txs ++ [(k, t)] } l =
      s.calls l ++ if k = l then [t] else [] := by
  simp only [tls_stream.calls, List.filterMap_append]
  by_cases h : k = l <;> simp [h]

theorem taken_append {st : hostcx.Stream UInt8} {com : writing_com} (l : layer) :
    tls_stream.taken { s with stream := st, com, txs := s.txs ++ [(k, t)] } l =
      s.taken l ++ if k = l then t.taken else [] := by
  rw [tls_stream.taken, calls_append, List.flatMap_append, tls_stream.taken]
  split <;> simp

theorem accepted_append {st st' : hostcx.Stream UInt8} (h : st'.txs = st.txs ++ [t]) :
    st'.accepted = st.accepted ++ t.taken := by
  simp [hostcx.Stream.accepted, h]

theorem taken_of_unused {l : layer} (h : s.used l = false) : s.taken l = [] := by
  have hno : ∀ t ∈ s.txs, t.1 ≠ l := by
    simp only [tls_stream.used, Bool.or_eq_false_iff, List.any_eq_false, decide_eq_true_eq] at h
    exact h.1
  have hcalls : s.calls l = [] := by
    rw [tls_stream.calls, List.filterMap_eq_nil_iff]
    intro t ht
    rw [if_neg (hno t ht)]
  rw [tls_stream.taken, hcalls, List.flatMap_nil]

/-- A read uses the layer that it comes to, and no other. -/
theorem used_read {com : writing_com} {through : Option layer} {bytes : List UInt8} {l : layer}
    (h : tls_stream.used { s with
      com, rxs := s.rxs ++ (through.map fun l => (l, bytes)).toList } l = true) :
    s.used l = true ∨ through = some l := by
  cases through with
  | none =>
    left
    simpa [tls_stream.used] using h
  | some l' =>
    by_cases hl : l' = l
    · exact Or.inr (by rw [hl])
    · left
      simpa [tls_stream.used, hl] using h

end

/-! ## The invariant -/

/-- The invariant: what OpenSSL was offered in vain last is still in front of the buffer. TLS is
used when the handshake is over, and the com below it when the com is bypassed. -/
structure CarriedInv (s : tls_stream) : Prop where
  stream : hostcx.Inv s.stream
  passed : s.stream.accepted = s.taken .ssl ++ s.taken .l4
  retry : (s.calls .ssl).IsChain Retries
  chunks : ∀ t ∈ s.calls .ssl, t.data ≠ [] ∧ t.data.length ≤ normalized
  last : s.com.com.bypass = false → ∀ t ∈ (s.calls .ssl).getLast?, t.l ≤ 0 →
    t.data <+: s.stream.cx.writebuf_
  beside : s.used .l4 = true → s.com.com.bypass = true
  settled : s.used .ssl = true → s.com.com.sslcom_waiting = false

theorem CarriedInv.carried {s : tls_stream} (h : CarriedInv s) : Carried s :=
  ⟨h.stream.intact, h.passed, h.retry, h.chunks, h.beside⟩

theorem start_carried (fds : Int) (com : SSLCom) : CarriedInv (tls_stream.start fds com) where
  stream := hostcx.start_inv fds
  passed := rfl
  retry := List.IsChain.nil
  chunks := by simp [tls_stream.calls, tls_stream.start]
  last := by simp [tls_stream.calls, tls_stream.start]
  beside := by simp [tls_stream.used, tls_stream.start]
  settled := by simp [tls_stream.used, tls_stream.start]

namespace CarriedInv

variable {s : tls_stream} {st : hostcx.Stream UInt8} {com : writing_com}

/-- A step that calls no layer. -/
theorem no_call (h : CarriedInv s) (hst : hostcx.Inv st)
    (haccepted : st.accepted = s.stream.accepted)
    (hbuf : s.stream.cx.writebuf_ <+: st.cx.writebuf_)
    (hcom : Settled s.com.com → Same s.com.com com.com) :
    CarriedInv { s with stream := st, com } where
  stream := hst
  passed := haccepted.trans h.passed
  retry := h.retry
  chunks := h.chunks
  last := by
    intro hbypass t ht hl
    have hold : s.com.com.bypass = false := by
      by_contra htrue
      have hb : s.com.com.bypass = true := by simpa using htrue
      have hsame := (hcom (Or.inl hb)).bypass
      rw [hb, hbypass] at hsame
      cases hsame
    exact (h.last hold t ht hl).trans hbuf
  beside := by
    intro hused
    have hb := h.beside hused
    exact (hcom (Or.inl hb)).bypass.trans hb
  settled := by
    intro hused
    have hw := h.settled hused
    exact (hcom (Or.inr hw)).waiting.trans hw

/-- A call of the com below. -/
theorem l4_call (h : CarriedInv s) (hst : hostcx.Inv st) {l : Int}
    (htxs : st.txs = s.stream.txs ++ [{ data := s.stream.cx.writebuf_, l }])
    (hbypass : com.com.bypass = true) (hcom : Settled s.com.com → Same s.com.com com.com) :
    CarriedInv { s with
      stream := st
      com
      txs := s.txs ++ [(.l4, { data := s.stream.cx.writebuf_, l })] } where
  stream := hst
  passed := by
    simp only [taken_append, reduceCtorEq, if_false, List.append_nil, if_true]
    rw [accepted_append htxs, h.passed, List.append_assoc]
  retry := by
    simp only [calls_append, reduceCtorEq, if_false, List.append_nil]
    exact h.retry
  chunks := by
    simp only [calls_append, reduceCtorEq, if_false, List.append_nil]
    exact h.chunks
  last := by
    intro hno
    rw [hbypass] at hno
    cases hno
  beside := fun _ => hbypass
  settled := by
    intro hused
    have hw : s.com.com.sslcom_waiting = false := by
      apply h.settled
      simpa [tls_stream.used] using hused
    exact (hcom (Or.inr hw)).waiting.trans hw

/-- A call of OpenSSL. -/
theorem ssl_call (h : CarriedInv s) (hst : hostcx.Inv st) {l l' : Int}
    (htxs : st.txs = s.stream.txs ++ [{ data := s.stream.cx.writebuf_, l }])
    (hbuf : st.cx.writebuf_ = s.stream.cx.writebuf_.drop l.toNat)
    (hbypass : s.com.com.bypass = false) (hwaiting : s.com.com.sslcom_waiting = false)
    (hne : s.stream.cx.writebuf_ ≠ []) (hl : l = max l' 0)
    (hle : l' ≤ (s.stream.cx.writebuf_.take normalized).length)
    (hcom : Settled s.com.com → Same s.com.com com.com) :
    CarriedInv { s with
      stream := st
      com
      txs := s.txs ++
        [(.ssl, { data := s.stream.cx.writebuf_.take normalized, l := l' })] } := by
  have hsame := hcom (Or.inr hwaiting)
  -- nothing went beside TLS so far
  have hl4 : s.used .l4 = false := by
    by_contra hused
    have hb := h.beside (by simpa using hused)
    rw [hbypass] at hb
    cases hb
  have hnat : l.toNat = l'.toNat := by omega
  have hbytes : tx.taken { data := s.stream.cx.writebuf_, l } =
      tx.taken { data := s.stream.cx.writebuf_.take normalized, l := l' } := by
    rw [List.length_take] at hle
    simp only [tx.taken, hnat, List.take_take]
    congr 1
    omega
  constructor
  · exact hst
  · simp only [taken_append, reduceCtorEq, if_false, List.append_nil, if_true]
    rw [accepted_append htxs, h.passed, taken_of_unused hl4, List.append_nil, List.append_nil,
      hbytes]
  · simp only [calls_append, if_true]
    apply h.retry.append (List.isChain_singleton _)
    intro t ht t' ht' hneg
    simp only [List.head?_cons, Option.mem_some_iff] at ht'
    subst ht'
    -- what was offered in vain is in front of the buffer, and no longer than a chunk
    have hfront := h.last hbypass t ht hneg
    have hsize := (h.chunks t (List.mem_of_mem_getLast? ht)).2
    exact List.prefix_take_iff.mpr ⟨hfront, hsize⟩
  · simp only [calls_append, if_true]
    intro t ht
    rcases List.mem_append.mp ht with ht | ht
    · exact h.chunks t ht
    · obtain rfl := List.mem_singleton.mp ht
      refine ⟨?_, List.length_take_le _ _⟩
      simpa [List.take_eq_nil_iff, normalized] using hne
  · simp only [calls_append, if_true]
    intro _ t ht hneg
    simp only [List.getLast?_append, List.getLast?_singleton, Option.some_or,
      Option.mem_some_iff] at ht
    subst ht
    have hzero : l.toNat = 0 := by
      simp only at hneg
      omega
    rw [hbuf, hzero, List.drop_zero]
    exact List.take_prefix _ _
  · intro hused
    have hold : s.used .l4 = true := by simpa [tls_stream.used] using hused
    rw [hl4] at hold
    cases hold
  · exact fun _ => hsame.waiting.trans hwaiting

end CarriedInv

section
variable {s s' : tls_stream}

/-- A call that does not write is one of the context. -/
theorem call_cases {c : hostcx.call UInt8} (hs : s.step (.call c) = some s') :
    (∀ peercom l, c ≠ .write peercom l) ∧
      ∃ st, cx_step s.stream c = some st ∧ s' = { s with stream := st } := by
  have hc : ∀ peercom l, c ≠ .write peercom l := by
    rintro peercom l rfl
    cases hs
  have hmap : (cx_step s.stream c).map (fun stream => { s with stream }) = some s' := by
    cases c with
    | write peercom l => exact absurd rfl (hc peercom l)
    | _ => exact hs
  obtain ⟨st, hst, heq⟩ := Option.map_eq_some_iff.mp hmap
  exact ⟨hc, st, hst, heq.symm⟩

theorem CarriedInv.write (h : CarriedInv s) {peercom : Option Bool} {i : inputs} {e : write_inputs}
    (hs : s.write peercom i e = some s') : CarriedInv s' := by
  unfold tls_stream.write at hs
  simp only [offer_writebuf] at hs
  split at hs
  · next hwait =>
    obtain ⟨st, hst, rfl⟩ := Option.map_eq_some_iff.mp hs
    obtain ⟨htxs, hbuf⟩ := cx_wait hwait hst
    exact h.no_call (hostcx.step_inv h.stream hst) (by simp [hostcx.Stream.accepted, htxs])
      (by rw [hbuf]) fun _ => Same.refl _
  · next hwait =>
    have hwait : (s.stream.cx.write_waiting_for_peercom peercom).write_waiting_for_peercom_ =
        false := by
      simpa using hwait
    obtain ⟨st, hst, rfl⟩ := Option.map_eq_some_iff.mp hs
    obtain ⟨htxs, hbuf⟩ := cx_write hwait hst
    have hinv := hostcx.step_inv h.stream hst
    have hsame : Settled s.com.com →
        Same s.com.com (s.com.write i e s.stream.cx.writebuf_).2.2.com := write_same
    have hwrote : Wrote s.com.com s.stream.cx.writebuf_ _ _ _ :=
      write_wrote (i := i) (e := e) (c := s.com)
    generalize s.com.write i e s.stream.cx.writebuf_ = r at htxs hbuf hinv hsame hwrote ⊢
    obtain ⟨l, t, com⟩ := r
    simp only at htxs hbuf hinv hsame hwrote ⊢
    generalize hcom : com.com = com' at hwrote hsame
    cases hwrote with
    | beside hbypass hl => exact h.l4_call hinv htxs (hcom ▸ hbypass) (hcom ▸ hsame)
    | nothing hl =>
      have hzero : l.toNat = 0 := by omega
      rw [hzero, List.drop_zero] at hbuf
      have haccepted : st.accepted = s.stream.accepted := by
        rw [accepted_append htxs]
        simp [tx.taken, hzero]
      simp only [Option.toList_none, List.append_nil]
      exact h.no_call hinv haccepted (by rw [hbuf]) (hcom ▸ hsame)
    | carried hbypass hwaiting hne hl hle =>
      exact h.ssl_call hinv htxs hbuf hbypass hwaiting hne hl hle (hcom ▸ hsame)

theorem CarriedInv.read (h : CarriedInv s) {i : inputs} {e : ssl_inputs} {n : Nat}
    (hs : s.read i e n = some s') : CarriedInv s' := by
  obtain ⟨r, hr, rfl⟩ := Option.map_eq_some_iff.mp hs
  obtain ⟨hsame, hl4, hssl⟩ := read_spec hr
  have hkept : CarriedInv { s with com := { s.com with toreading_com := r.2 } } :=
    h.no_call h.stream rfl (List.prefix_refl _) hsame
  refine { hkept with beside := ?_, settled := ?_ }
  · intro hused
    rcases used_read hused with hbefore | hlayer
    · exact hkept.beside hbefore
    · exact hl4 hlayer
  · intro hused
    rcases used_read hused with hbefore | hlayer
    · exact hkept.settled hbefore
    · obtain ⟨-, hwaiting⟩ := hssl hlayer
      exact (hsame (Or.inr hwaiting)).waiting.trans hwaiting

theorem CarriedInv.bypass (h : CarriedInv s) : CarriedInv s.bypass where
  stream := h.stream
  passed := h.passed
  retry := h.retry
  chunks := h.chunks
  last := fun hno => by cases hno
  beside := fun _ => rfl
  settled := h.settled

theorem CarriedInv.step (h : CarriedInv s) {a : tls_action} (hs : s.step a = some s') :
    CarriedInv s' := by
  cases a with
  | call c =>
    obtain ⟨hc, st, hst, rfl⟩ := call_cases hs
    obtain ⟨htxs, hbuf⟩ := cx_call hc hst
    exact h.no_call (hostcx.step_inv h.stream hst) (by simp [hostcx.Stream.accepted, htxs]) hbuf
      fun _ => Same.refl _
  | write peercom i e => exact h.write hs
  | read i e n => exact h.read hs
  | bypassed =>
    obtain rfl := Option.some.inj hs
    exact h.bypass

end

end socle.tls
