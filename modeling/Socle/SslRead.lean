-- Reading decrypted bytes (sslcom.tpp: read). Several rounds of SSL_read fill the
-- buffer of one call. Each exit of their loop decides for itself between the
-- bytes of all rounds and the result of the last one.
import Socle.Handshake

namespace socle.tls

/-! ## What OpenSSL and the clock give -/

def SSL_ERROR_NONE : Int := 0
def SSL_ERROR_WANT_X509_LOOKUP : Int := 4
def SSL_ERROR_ZERO_RETURN : Int := 6
def SSL_ERROR_WANT_CONNECT : Int := 7
def SSL_ERROR_WANT_ACCEPT : Int := 8

/-- A call that reads: what it returns, `SSL_get_error` after it, and the bytes that it put into the
buffer it was given. -/
structure read_result where
  ret : Int
  err : Int := 0
  data : List UInt8 := []

/-- A call that was given room for `num` bytes puts no more there, and returns how many they are. -/
def read_result.Honest (num : Int) (r : read_result) : Prop :=
  r.data.length = r.ret.toNat ∧ r.ret ≤ max num 0

/-- A `size_t` as an `int`. -/
def to_int (n : Nat) : Int :=
  if n % 2 ^ 32 < 2 ^ 31 then (n % 2 ^ 32 : Nat) else (n % 2 ^ 32 : Nat) - 2 ^ 32

/-- `struct timeval`. -/
structure timeval where
  tv_sec : Int := 0
  tv_usec : Int := 0

/-- `timeval_msdelta_now`, when it is `now`. -/
def timeval_msdelta (now x : timeval) : Int :=
  (now.tv_sec - x.tv_sec) * 1000 + (now.tv_usec - x.tv_usec).tdiv 1000

/-- In ms. -/
def SSLCOM_READ_TIMEOUT : Int := 60 * 1000

def rescan_threshold_read : Nat := 30
def rescan_threshold_write : Nat := 30

/-- What the calls in one `read` meet: round by round `SSL_read`, which is told how much room there
is, `SSL_pending` after it, and the time. `peek` is the flag MSG_PEEK, `SSL_peek` and `l4_read` what
is read instead of the rounds. OpenSSL has no error when, and only when, it gave bytes. -/
structure ssl_inputs where
  SSL_read : Nat → Int → read_result
  SSL_pending : Nat → Bool
  now : Nat → timeval
  peek : Bool := false
  SSL_peek : Int → read_result
  l4_read : Nat → read_result
  read_honest : ∀ k num, (SSL_read k num).Honest num
  none_iff : ∀ k num, (SSL_read k num).err = SSL_ERROR_NONE ↔ 0 < (SSL_read k num).ret
  peek_honest : ∀ num, (SSL_peek num).Honest num
  l4_honest : ∀ n : Nat, (l4_read n).Honest n

/-! ## The com -/

/-- What `read` asks the poller for. -/
inductive poll_call
  | set_enforce | rescan_read | set_monitor | rescan_write | set_write_monitor | modify_in
deriving DecidableEq, Repr

/-- What `read` works with. `written` are its writes into the buffer of the caller: the place, and the
bytes. -/
structure reading_com where
  com : SSLCom
  error_ : Bool := false
  forced_read_on_write_ : Bool := false
  sslcom_read_blocked_on_write : Bool := false
  read_want_read_cur : Nat := 0
  read_want_write_cur : Nat := 0
  timer_read_timeout : timeval := {}
  timer_write_timeout : timeval := {}
  calls : List poll_call := []
  written : List (Nat × List UInt8) := []

namespace reading_com

variable (c : reading_com)

def call (p : poll_call) : reading_com :=
  { c with calls := c.calls ++ [p] }

/-- Bytes are put at `_buf + at`. -/
def put (place : Nat) (data : List UInt8) : reading_com :=
  { c with written := c.written ++ [(place, data)] }

/-- The buffer is full, but OpenSSL may have more: the next round is enforced. -/
def buffer_full : reading_com :=
  { c with com := c.com.force true false }.call .set_enforce

/-- After a round that gave bytes. -/
def round_done (now : timeval) : reading_com :=
  let c :=
    if c.sslcom_read_blocked_on_write then
      { c with sslcom_read_blocked_on_write := false }.call .modify_in
    else c
  -- reset IO timeouts, reset WANT counters
  { c with
    timer_read_timeout := now
    timer_write_timeout := now
    read_want_write_cur := 0
    read_want_read_cur := 0 }

def want_read : reading_com :=
  if c.read_want_read_cur + 1 > rescan_threshold_read then
    { c with read_want_read_cur := 0 }.call .rescan_read
  else { c with read_want_read_cur := c.read_want_read_cur + 1 }.call .set_monitor

def want_write : reading_com :=
  let c := { c with forced_read_on_write_ := true, sslcom_read_blocked_on_write := true }
  if c.read_want_write_cur + 1 > rescan_threshold_write then
    { c with read_want_write_cur := 0 }.call .rescan_write
  else { c with read_want_write_cur := c.read_want_write_cur + 1 }.call .set_write_monitor

/-- `timeval_msdelta_now(&timer_read_timeout) > SSLCOM_READ_TIMEOUT`. -/
def timed_out (now : timeval) : Bool :=
  timeval_msdelta now c.timer_read_timeout > SSLCOM_READ_TIMEOUT

/-- `error(ERROR_READ)`. -/
def error_read : reading_com :=
  { c with error_ := true }

def fatal : reading_com :=
  { c with com := { c.com with sslcom_fatal := true } }

end reading_com

/-! ## The rounds -/

/-- `if(total_r > 0) return total_r; return sslcom_ret;` -/
def total_or (total_r : Nat) (sslcom_ret : Int) : Int :=
  if total_r > 0 then total_r else sslcom_ret

/-- The cases of the switch for a round that gave nothing. -/
def round_failed (r : read_result) (total_r : Nat) (now : timeval) (c : reading_com) :
    Int × reading_com :=
  if r.err = SSL_ERROR_ZERO_RETURN then (r.ret, c)
  else if r.err = SSL_ERROR_WANT_READ then
    let c := c.want_read
    if c.timed_out now then (0, c.error_read) else (total_or total_r r.ret, c)
  else if r.err = SSL_ERROR_WANT_CONNECT then (total_or total_r r.ret, c)
  else if r.err = SSL_ERROR_WANT_ACCEPT then (total_or total_r r.ret, c)
  else if r.err = SSL_ERROR_WANT_WRITE then
    let c := c.want_write
    if c.timed_out now then (0, c.error_read) else (total_or total_r r.ret, c)
  else if r.err = SSL_ERROR_WANT_X509_LOOKUP then (total_or total_r r.ret, c)
  else if r.err = SSL_ERROR_SYSCALL then (total_or total_r r.ret, c.fatal)
  else (total_or total_r r.ret, c)

/-- The loop, from the round `rounds` on. It gives `none` when `fuel` is too small. -/
def read_rounds (e : ssl_inputs) (n : Nat) :
    Nat → Nat → Nat → reading_com → Option (Int × reading_com)
  | 0, _, _, _ => none
  | fuel + 1, rounds, total_r, c =>
    if (total_r : Int) ≥ to_int n then some (total_r, c.buffer_full)
    else
      let r := e.SSL_read rounds (to_int (n - total_r))
      let c := c.put total_r r.data
      if r.err = SSL_ERROR_NONE then
        let total_r := if r.ret > 0 then total_r + r.ret.toNat else total_r
        let c := c.round_done (e.now rounds)
        if e.SSL_pending rounds then read_rounds e n fuel (rounds + 1) total_r c
        else some (total_r, c)
      else some (round_failed r total_r (e.now rounds) c)

/-- A turn is made for each byte of the buffer, at most, and one more to leave the loop. -/
def turns (n : Nat) : Nat :=
  (to_int n).toNat + 1

/-- `read` once the handshake is over. -/
def read_ssl (e : ssl_inputs) (n : Nat) (c : reading_com) : Option (Int × reading_com) :=
  if e.peek then
    let r := e.SSL_peek (to_int n)
    some (r.ret, c.put 0 r.data)
  else read_rounds e n (turns n) 0 0 c

/-- `L4Proto::read`. -/
def read_l4 (e : ssl_inputs) (n : Nat) (c : reading_com) : Option (Int × reading_com) :=
  some ((e.l4_read n).ret, c.put 0 (e.l4_read n).data)

/-- `read`, into a buffer of `n` bytes that nothing was written into. -/
def reading_com.read (i : inputs) (e : ssl_inputs) (n : Nat) (c : reading_com) :
    Option (Int × reading_com) :=
  let c := { c with written := [] }
  if c.com.bypass then read_l4 e n c
  -- non-blocking socket can be still opening
  else if c.com.sslcom_waiting then
    match handshake i c.com with
    | (.AGAIN, com) => if com.bypass then read_l4 e n { c with com } else some (-1, { c with com })
    | (.ERROR, com) => some (0, { c with com })
    | (.FATAL, com) => some (0, { c with com := { com with sslcom_fatal := true } })
    -- if we were waiting, force next round of read
    | (_, com) => read_ssl e n { c with com := (com.force true false).monitor_peer }
  else read_ssl e n c

/-! ## The law -/

/-- How many bytes were written into the buffer. -/
def bytes_of (written : List (Nat × List UInt8)) : Nat :=
  (written.map fun w => w.2.length).sum

/-- Each write begins where the one before it ended, the first one at `place`. -/
def InSequence (place : Nat) : List (Nat × List UInt8) → Prop
  | [] => True
  | w :: rest => w.1 = place ∧ InSequence (place + w.2.length) rest

/-- Nothing that was copied into the buffer of `n` bytes is lost for the caller: the call returns how
many bytes there are, one round behind the other, and none is behind the end of the buffer. -/
structure Delivers (n : Nat) (written : List (Nat × List UInt8)) (ret : Int) : Prop where
  returned : 0 < bytes_of written → ret = bytes_of written
  in_sequence : InSequence 0 written
  bounded : ret ≤ n
  inside : ∀ w ∈ written, w.1 + w.2.length ≤ n

section
variable (e : ssl_inputs) (n : Nat)

/-- What the rounds before the `k`-th give, when all of them are made. -/
def copied : Nat → Nat
  | 0 => 0
  | k + 1 => copied k + (e.SSL_read k (to_int (n - copied k))).ret.toNat

/-- The result of the `k`-th round. -/
def round (k : Nat) : read_result :=
  e.SSL_read k (to_int (n - copied e n k))

/-- The `k`-th round is made: each one before it gave bytes and left others pending, and the buffer
has room. -/
def Reaches (k : Nat) : Prop :=
  (∀ j < k, (round e n j).err = SSL_ERROR_NONE ∧ e.SSL_pending j = true) ∧
    (copied e n k : Int) < to_int n

/-- The `k`-th round waits, and SSLCOM_READ_TIMEOUT has passed since the round before it. -/
def Late (k : Nat) : Prop :=
  ((round e n k).err = SSL_ERROR_WANT_READ ∨ (round e n k).err = SSL_ERROR_WANT_WRITE) ∧
    timeval_msdelta (e.now k) (e.now (k - 1)) > SSLCOM_READ_TIMEOUT

/-- The `k`-th round may follow others: it meets no close notification, and no timeout. -/
def Safe (k : Nat) : Prop :=
  (round e n k).err ≠ SSL_ERROR_ZERO_RETURN ∧ ¬ Late e n k

/-- Each round that follows others is safe. -/
def Unbroken : Prop :=
  ∀ k, 0 < k → Reaches e n k → Safe e n k

end

/-- The call comes to the rounds. -/
def comes_to_rounds (i : inputs) (e : ssl_inputs) (c : reading_com) : Bool :=
  !e.peek && !c.com.bypass && (!c.com.sslcom_waiting ||
    (handshake i c.com).1 ∈ [ret_handshake.SUCCESS, ret_handshake.BYPASS])

/-! ## The buffer of the caller -/

@[simp] theorem bytes_of_append (written : List (Nat × List UInt8)) (place : Nat)
    (data : List UInt8) : bytes_of (written ++ [(place, data)]) = bytes_of written + data.length := by
  simp [bytes_of]

theorem in_sequence_append {place : Nat} {written : List (Nat × List UInt8)}
    (h : InSequence place written) (data : List UInt8) :
    InSequence place (written ++ [(place + bytes_of written, data)]) := by
  induction written generalizing place with
  | nil => simp [InSequence, bytes_of]
  | cons w rest ih =>
    obtain ⟨hplace, hrest⟩ := h
    refine ⟨hplace, ?_⟩
    have hbytes : place + bytes_of (w :: rest) = place + w.2.length + bytes_of rest := by
      simp [bytes_of, Nat.add_assoc]
    rw [hbytes]
    exact ih hrest

theorem in_sequence_inside {place : Nat} {written : List (Nat × List UInt8)}
    (h : InSequence place written) : ∀ w ∈ written, w.1 + w.2.length ≤ place + bytes_of written := by
  induction written generalizing place with
  | nil => simp
  | cons w rest ih =>
    obtain ⟨hplace, hrest⟩ := h
    have hbytes : place + bytes_of (w :: rest) = place + w.2.length + bytes_of rest := by
      simp [bytes_of, Nat.add_assoc]
    intro w' hw'
    rcases List.mem_cons.mp hw' with rfl | hw'
    · omega
    · rw [hbytes]
      exact ih hrest w' hw'

/-- What lies in sequence is delivered when the right number is returned. -/
theorem delivers_iff {n : Nat} {written : List (Nat × List UInt8)} {ret : Int}
    (hseq : InSequence 0 written) (hroom : bytes_of written ≤ n) (hret : ret ≤ n) :
    Delivers n written ret ↔ (0 < bytes_of written → ret = bytes_of written) := by
  constructor
  · exact fun h => h.returned
  · intro h
    refine ⟨h, hseq, hret, fun w hw => ?_⟩
    have hinside := in_sequence_inside hseq w hw
    omega

/-- One honest call that writes at the start of the buffer. -/
theorem delivers_single {n : Nat} {num : Int} {r : read_result} (h : r.Honest num) (hnum : num ≤ n) :
    Delivers n [(0, r.data)] r.ret := by
  obtain ⟨hlength, hle⟩ := h
  have hbytes : bytes_of [(0, r.data)] = r.data.length := by simp [bytes_of]
  rw [delivers_iff (by simp [InSequence])] <;> omega

theorem delivers_nothing {n : Nat} {ret : Int} (h : ret ≤ 0) : Delivers n [] ret := by
  have hroom : bytes_of [] ≤ n := Nat.zero_le n
  rw [delivers_iff (by simp [InSequence]) hroom (by omega)]
  simp [bytes_of]

/-! ## Sizes -/

theorem to_int_le (n : Nat) : to_int n ≤ n := by
  unfold to_int
  split <;> omega

/-- The room that is left, as `int`. -/
theorem to_int_sub {n t : Nat} (h : (t : Int) < to_int n) : to_int (n - t) = to_int n - t := by
  have hle : t ≤ n := by
    have hn := to_int_le n
    omega
  unfold to_int at *
  split at h
  next hlt =>
    have hmod : (n - t) % 2 ^ 32 = n % 2 ^ 32 - t := by omega
    rw [if_pos hlt, hmod, if_pos (by omega)]
    omega
  next => omega

section
variable {e : ssl_inputs} {n : Nat}

theorem copied_mono {j k : Nat} (h : j ≤ k) : copied e n j ≤ copied e n k := by
  induction h with
  | refl => exact Nat.le_refl _
  | step _ ih => exact ih.trans (Nat.le_add_right _ _)

/-- Each round that gave bytes adds one at least. -/
theorem le_copied {k : Nat} (h : ∀ j < k, (round e n j).err = SSL_ERROR_NONE) :
    k ≤ copied e n k := by
  induction k with
  | zero => exact Nat.zero_le _
  | succ k ih =>
    have hret : 0 < (round e n k).ret := (e.none_iff _ _).mp (h k (Nat.lt_succ_self k))
    have hk := ih fun j hj => h j (Nat.lt_succ_of_lt hj)
    have hadd : copied e n (k + 1) = copied e n k + (round e n k).ret.toNat := rfl
    omega

/-- A round never gives more than there is room for. -/
theorem copied_succ_le {k : Nat} (h : (copied e n k : Int) < to_int n) :
    (copied e n (k + 1) : Int) ≤ to_int n := by
  have hhonest := (e.read_honest k (to_int (n - copied e n k))).2
  rw [to_int_sub h] at hhonest
  have hadd : copied e n (k + 1) = copied e n k + (round e n k).ret.toNat := rfl
  have hround : (round e n k).ret ≤ max (to_int n - copied e n k) 0 := by
    rw [round, to_int_sub h]
    exact hhonest
  omega

end

/-! ## A round that gives nothing -/

section
variable {r : read_result} {total_r : Nat} {now : timeval} {c : reading_com}

@[simp] theorem want_read_written : c.want_read.written = c.written := by
  unfold reading_com.want_read
  split <;> rfl

@[simp] theorem want_write_written : c.want_write.written = c.written := by
  unfold reading_com.want_write
  simp only
  split <;> rfl

@[simp] theorem want_read_timed_out : c.want_read.timed_out now = c.timed_out now := by
  unfold reading_com.want_read
  split <;> rfl

@[simp] theorem want_write_timed_out : c.want_write.timed_out now = c.timed_out now := by
  unfold reading_com.want_write
  simp only
  split <;> rfl

theorem round_failed_written : (round_failed r total_r now c).2.written = c.written := by
  unfold round_failed
  simp only [want_read_timed_out, want_write_timed_out]
  split_ifs <;> simp [reading_com.error_read, reading_com.fatal]

/-- Each exit but two gives the bytes of the rounds before. -/
theorem round_failed_total (hpos : 0 < total_r) (hret : r.ret ≤ 0) :
    (round_failed r total_r now c).1 = total_r ↔ r.err ≠ SSL_ERROR_ZERO_RETURN ∧
      ¬ ((r.err = SSL_ERROR_WANT_READ ∨ r.err = SSL_ERROR_WANT_WRITE) ∧ c.timed_out now = true) := by
  have hne : r.ret ≠ total_r := by omega
  have hzero : (0 : Int) ≠ total_r := by omega
  have htotal : total_or total_r r.ret = total_r := if_pos hpos
  unfold round_failed
  simp only [want_read_timed_out, want_write_timed_out, htotal]
  by_cases hclosed : r.err = SSL_ERROR_ZERO_RETURN
  · simp [hclosed, hne]
  · by_cases hread : r.err = SSL_ERROR_WANT_READ
    · cases hlate : c.timed_out now <;> simp [hread, hzero, SSL_ERROR_WANT_READ,
        SSL_ERROR_ZERO_RETURN]
    · by_cases hwrite : r.err = SSL_ERROR_WANT_WRITE
      · cases hlate : c.timed_out now <;> simp [hwrite, hzero, SSL_ERROR_WANT_READ,
          SSL_ERROR_WANT_WRITE, SSL_ERROR_ZERO_RETURN, SSL_ERROR_WANT_CONNECT,
          SSL_ERROR_WANT_ACCEPT]
      · simp only [hclosed, hread, hwrite, if_false, false_or, false_and, not_false_iff, and_true,
          ne_eq, iff_true]
        split_ifs <;> rfl

theorem round_failed_le (hret : r.ret ≤ 0) : (round_failed r total_r now c).1 ≤ total_r := by
  have htotal : total_or total_r r.ret ≤ total_r := by
    unfold total_or
    split <;> omega
  unfold round_failed
  simp only [want_read_timed_out, want_write_timed_out]
  split_ifs <;> first | exact htotal | omega

end

/-! ## The loop -/

section
variable {e : ssl_inputs} {n : Nat}

/-- A round with bytes is safe. -/
theorem safe_of_none {k : Nat} (h : (round e n k).err = SSL_ERROR_NONE) : Safe e n k := by
  refine ⟨by rw [h]; decide, ?_⟩
  rintro ⟨hwait | hwait, -⟩
  · rw [h] at hwait
    exact absurd hwait (by decide)
  · rw [h] at hwait
    exact absurd hwait (by decide)

/-- Where the loop is before the `k`-th round. -/
structure AtRound (e : ssl_inputs) (n k : Nat) (c : reading_com) : Prop where
  before : ∀ j < k, (round e n j).err = SSL_ERROR_NONE ∧ e.SSL_pending j = true
  room : (copied e n k : Int) ≤ max (to_int n) 0
  bytes : bytes_of c.written = copied e n k
  in_sequence : InSequence 0 c.written
  timer : 0 < k → c.timer_read_timeout = e.now (k - 1)

theorem AtRound.room_le {k : Nat} {c : reading_com} (h : AtRound e n k c) : copied e n k ≤ n := by
  have hn := to_int_le n
  have hroom := h.room
  omega

/-- The buffer is full. -/
theorem AtRound.full {k : Nat} {c : reading_com} (h : AtRound e n k c)
    (hfull : (copied e n k : Int) ≥ to_int n) :
    Delivers n c.buffer_full.written (copied e n k) ↔
      ∀ k' ≥ k, 0 < k' → Reaches e n k' → Safe e n k' := by
  have hle := h.room_le
  have hdelivers : Delivers n c.buffer_full.written (copied e n k) := by
    have hseq : InSequence 0 c.buffer_full.written := h.in_sequence
    have hbytes : bytes_of c.buffer_full.written = copied e n k := h.bytes
    rw [delivers_iff hseq (by omega) (by omega), hbytes]
    exact fun _ => rfl
  apply iff_of_true hdelivers
  intro k' hk' _ hreach
  have hmono := copied_mono (e := e) (n := n) hk'
  have hroom := hreach.2
  omega

/-- The round gives nothing. -/
theorem AtRound.failed {k : Nat} {c : reading_com} (h : AtRound e n k c)
    (hroom : (copied e n k : Int) < to_int n) (herr : (round e n k).err ≠ SSL_ERROR_NONE) :
    Delivers n (round_failed (round e n k) (copied e n k) (e.now k)
        (c.put (copied e n k) (round e n k).data)).2.written
      (round_failed (round e n k) (copied e n k) (e.now k)
        (c.put (copied e n k) (round e n k).data)).1 ↔
      ∀ k' ≥ k, 0 < k' → Reaches e n k' → Safe e n k' := by
  have hret : (round e n k).ret ≤ 0 := by
    by_contra hpos
    exact herr ((e.none_iff _ _).mpr (by unfold round at hpos; omega))
  have hdata : (round e n k).data.length = 0 := by
    have hlength := (e.read_honest k (to_int (n - copied e n k))).1
    change (round e n k).data.length = (round e n k).ret.toNat at hlength
    omega
  have hle := h.room_le
  have hseq : InSequence 0 (c.put (copied e n k) (round e n k).data).written := by
    have happend := in_sequence_append h.in_sequence (round e n k).data
    rwa [Nat.zero_add, h.bytes] at happend
  have hbytes : bytes_of (c.put (copied e n k) (round e n k).data).written = copied e n k := by
    simp [reading_com.put, h.bytes, hdata]
  have hfailed : (round_failed (round e n k) (copied e n k) (e.now k)
      (c.put (copied e n k) (round e n k).data)).1 ≤ copied e n k := round_failed_le hret
  rw [round_failed_written, delivers_iff hseq (by omega) (by omega), hbytes]
  -- the rounds behind this one are not made
  have hlast : (∀ k' ≥ k, 0 < k' → Reaches e n k' → Safe e n k') ↔ (0 < k → Safe e n k) := by
    constructor
    · exact fun hall hk => hall k (Nat.le_refl k) hk ⟨h.before, hroom⟩
    · intro hk k' hk' hpos hreach
      rcases Nat.eq_or_lt_of_le hk' with rfl | hlt
      · exact hk hpos
      · exact absurd (hreach.1 k hlt).1 herr
  rw [hlast]
  by_cases hk : 0 < k
  · have hpos : 0 < copied e n k := by
      have hmany := le_copied fun j hj => (h.before j hj).1
      omega
    have hlate : (c.put (copied e n k) (round e n k).data).timed_out (e.now k) = true ↔
        timeval_msdelta (e.now k) (e.now (k - 1)) > SSLCOM_READ_TIMEOUT := by
      rw [← h.timer hk]
      exact decide_eq_true_iff
    rw [forall_prop_of_true hpos, round_failed_total hpos hret, forall_prop_of_true hk, hlate]
    rfl
  · have hzero : k = 0 := by omega
    subst hzero
    simp [copied]

/-- The bytes of a round lie behind those of the rounds before it. -/
theorem AtRound.put_in_sequence {k : Nat} {c : reading_com} (h : AtRound e n k c)
    (data : List UInt8) : InSequence 0 (c.put (copied e n k) data).written := by
  have happend := in_sequence_append h.in_sequence data
  rwa [Nat.zero_add, h.bytes] at happend

theorem AtRound.put_bytes {k : Nat} {c : reading_com} (h : AtRound e n k c) :
    bytes_of (c.put (copied e n k) (round e n k).data).written = copied e n (k + 1) := by
  have hlength := (e.read_honest k (to_int (n - copied e n k))).1
  simp only [reading_com.put, bytes_of_append, h.bytes, copied]
  exact congrArg (copied e n k + ·) hlength

@[simp] theorem round_done_written (c : reading_com) (now : timeval) :
    (c.round_done now).written = c.written := by
  unfold reading_com.round_done
  simp only
  split <;> rfl

@[simp] theorem round_done_timer (c : reading_com) (now : timeval) :
    (c.round_done now).timer_read_timeout = now := rfl

/-- The round gives bytes, and the loop comes to the next one. -/
theorem AtRound.next {k : Nat} {c : reading_com} (h : AtRound e n k c)
    (hroom : (copied e n k : Int) < to_int n) (herr : (round e n k).err = SSL_ERROR_NONE)
    (hpending : e.SSL_pending k = true) :
    AtRound e n (k + 1) ((c.put (copied e n k) (round e n k).data).round_done (e.now k)) where
  before := by
    intro j hj
    rcases Nat.lt_succ_iff_lt_or_eq.mp hj with hlt | rfl
    · exact h.before j hlt
    · exact ⟨herr, hpending⟩
  room := (copied_succ_le hroom).trans (le_max_left _ _)
  bytes := by
    rw [round_done_written]
    exact h.put_bytes
  in_sequence := by
    rw [round_done_written]
    exact h.put_in_sequence _
  timer := fun _ => round_done_timer _ _

/-- The round gives the last bytes. -/
theorem AtRound.last {k : Nat} {c : reading_com} (h : AtRound e n k c)
    (hroom : (copied e n k : Int) < to_int n) (herr : (round e n k).err = SSL_ERROR_NONE)
    (hpending : e.SSL_pending k = false) :
    Delivers n ((c.put (copied e n k) (round e n k).data).round_done (e.now k)).written
        (copied e n (k + 1)) ↔
      ∀ k' ≥ k, 0 < k' → Reaches e n k' → Safe e n k' := by
  have hle : (copied e n (k + 1) : Int) ≤ n := (copied_succ_le hroom).trans (to_int_le n)
  apply iff_of_true
  · rw [round_done_written, delivers_iff (h.put_in_sequence _) (by rw [h.put_bytes]; omega) hle,
      h.put_bytes]
    exact fun _ => rfl
  · intro k' hk' _ hreach
    rcases Nat.eq_or_lt_of_le hk' with rfl | hlt
    · exact safe_of_none herr
    · have hmore := (hreach.1 k hlt).2
      simp [hpending] at hmore

/-- The loop ends, and delivers when, and only when, the rounds that follow are safe. -/
theorem rounds_deliver (fuel k : Nat) (c : reading_com) (h : AtRound e n k c)
    (hfuel : (to_int n).toNat - copied e n k < fuel) :
    ∃ ret c', read_rounds e n fuel k (copied e n k) c = some (ret, c') ∧
      (Delivers n c'.written ret ↔ ∀ k' ≥ k, 0 < k' → Reaches e n k' → Safe e n k') := by
  induction fuel generalizing k c with
  | zero => omega
  | succ fuel ih =>
    unfold read_rounds
    by_cases hfull : (copied e n k : Int) ≥ to_int n
    · rw [if_pos hfull]
      exact ⟨_, _, rfl, h.full hfull⟩
    have hroom : (copied e n k : Int) < to_int n := by omega
    rw [if_neg hfull]
    change ∃ ret c', (if (round e n k).err = SSL_ERROR_NONE then _ else _) = some (ret, c') ∧ _
    by_cases herr : (round e n k).err = SSL_ERROR_NONE
    · have hret : 0 < (round e n k).ret := (e.none_iff _ _).mp herr
      have htotal : (if (round e n k).ret > 0 then copied e n k + (round e n k).ret.toNat
          else copied e n k) = copied e n (k + 1) := if_pos hret
      rw [if_pos herr]
      cases hpending : e.SSL_pending k with
      | false =>
        refine ⟨_, _, ?_, h.last hroom herr hpending⟩
        exact congrArg (fun t : Nat => some ((t : Int), _)) htotal
      | true =>
        have hgrows : copied e n (k + 1) = copied e n k + (round e n k).ret.toNat := rfl
        obtain ⟨ret, c', hrun, hiff⟩ := ih (k + 1) _ (h.next hroom herr hpending) (by omega)
        refine ⟨ret, c', ?_, hiff.trans ?_⟩
        · rw [← hrun, ← htotal]
          rfl
        · constructor
          · intro hall k' hk'
            rcases Nat.eq_or_lt_of_le hk' with rfl | hlt
            · exact fun _ _ => safe_of_none herr
            · exact hall k' hlt
          · exact fun hall k' hk' => hall k' (by omega)
    · rw [if_neg herr]
      exact ⟨_, _, rfl, h.failed hroom herr⟩

/-! ## One call -/

/-- A result that delivers, whatever the rounds would give. -/
theorem delivers_always {P Q : Prop} {r : Option (Int × reading_com)} {ret : Int} {c : reading_com}
    (hr : r = some (ret, c)) (h : Delivers n c.written ret) (hP : ¬ P) :
    ∃ ret c', r = some (ret, c') ∧ (Delivers n c'.written ret ↔ (P → Q)) :=
  ⟨ret, c, hr, iff_of_true h fun hp => absurd hp hP⟩

theorem read_l4_delivers {P Q : Prop} (c : reading_com) (h : c.written = []) (hP : ¬ P) :
    ∃ ret c', read_l4 e n c = some (ret, c') ∧ (Delivers n c'.written ret ↔ (P → Q)) := by
  apply delivers_always rfl _ hP
  simp only [reading_com.put, h, List.nil_append]
  exact delivers_single (e.l4_honest n) (Int.le_refl _)

theorem read_ssl_delivers (c : reading_com) (h : c.written = []) :
    ∃ ret c', read_ssl e n c = some (ret, c') ∧
      (Delivers n c'.written ret ↔ (e.peek = false → Unbroken e n)) := by
  unfold read_ssl
  cases hpeek : e.peek with
  | true =>
    apply delivers_always rfl _ (by simp)
    simp only [reading_com.put, h, List.nil_append]
    exact delivers_single (e.peek_honest (to_int n)) (to_int_le n)
  | false =>
    have hat : AtRound e n 0 c := by
      refine ⟨by simp, by simp [copied], by simp [h, bytes_of, copied], ?_, by simp⟩
      simp [h, InSequence]
    obtain ⟨ret, c', hrun, hiff⟩ := rounds_deliver (turns n) 0 c hat (by simp [turns, copied])
    refine ⟨ret, c', hrun, hiff.trans ?_⟩
    simp [Unbroken]

end

/-- A call gives all that was copied when, and only when, no round behind one that gave bytes meets a
close notification or a timeout. -/
theorem copied_bytes_are_returned (i : inputs) (e : ssl_inputs) (n : Nat) (c : reading_com) :
    ∃ ret c', c.read i e n = some (ret, c') ∧
      (Delivers n c'.written ret ↔ (comes_to_rounds i e c = true → Unbroken e n)) := by
  unfold reading_com.read
  cases hbypass : c.com.bypass with
  | true =>
    simp only [hbypass, if_true]
    apply read_l4_delivers
    · rfl
    · simp [comes_to_rounds, hbypass]
  | false =>
    cases hwaiting : c.com.sslcom_waiting with
    | false =>
      have hcomes : comes_to_rounds i e c = !e.peek := by
        simp [comes_to_rounds, hbypass, hwaiting]
      simp only [hcomes, hbypass, hwaiting, Bool.not_eq_true', Bool.false_eq_true, if_false]
      apply read_ssl_delivers
      rfl
    | true =>
      rcases hresult : handshake i c.com with ⟨result, com⟩
      have hcomes : comes_to_rounds i e c =
          (!e.peek && decide (result ∈ [ret_handshake.SUCCESS, ret_handshake.BYPASS])) := by
        simp [comes_to_rounds, hbypass, hwaiting, hresult]
      simp only [hbypass, hwaiting, hresult, Bool.false_eq_true, if_false, if_true]
      cases result with
      | AGAIN =>
        dsimp only
        split
        · apply read_l4_delivers
          · rfl
          · simp [hcomes]
        · apply delivers_always rfl
          · exact delivers_nothing (by decide)
          · simp [hcomes]
      | ERROR | FATAL =>
        apply delivers_always rfl
        · exact delivers_nothing (by decide)
        · simp [hcomes]
      | SUCCESS | BYPASS =>
        simp only [hcomes, List.mem_cons, List.not_mem_nil, or_false, reduceCtorEq, or_true,
          decide_true, Bool.and_true, Bool.not_eq_true']
        apply read_ssl_delivers
        rfl

/-- The first `SSL_read` gives five bytes and leaves a record pending, which is the notification that
the peer closes. -/
def closed_behind_data : ssl_inputs where
  SSL_read k num :=
    if k = 0 ∧ 5 ≤ num then { ret := 5, err := SSL_ERROR_NONE, data := [1, 2, 3, 4, 5] }
    else { ret := 0, err := SSL_ERROR_ZERO_RETURN }
  SSL_pending k := k == 0
  now _ := {}
  SSL_peek _ := { ret := -1, err := SSL_ERROR_WANT_READ }
  l4_read _ := { ret := -1 }
  read_honest k num := by
    split
    next h => exact ⟨rfl, by simp [h.2]⟩
    next => exact ⟨rfl, by simp⟩
  none_iff k num := by
    split <;> simp [SSL_ERROR_NONE, SSL_ERROR_ZERO_RETURN]
  peek_honest num := ⟨rfl, by simp⟩
  l4_honest n := ⟨rfl, by simp⟩

/-- The five bytes lie in the buffer, and the call returns that the peer has closed. -/
theorem a_close_drops_the_bytes :
    ¬ ∀ (i : inputs) (e : ssl_inputs) (n : Nat) (c c' : reading_com) (ret : Int),
        c.read i e n = some (ret, c') → Delivers n c'.written ret := by
  intro hall
  let com : SSLCom :=
    { is_server := true, peer_ := .ssl, sslcom_ssl := true, sslcom_waiting := false }
  let i : inputs := ⟨.hello, ⟨1, 0, 0, 0⟩, false, ⟨1, 0, 0, 0⟩⟩
  have hread := hall i closed_behind_data 10 { com := com } _ 0 rfl
  have hret := hread.returned (by decide)
  exact absurd hret (by decide)

end socle.tls
