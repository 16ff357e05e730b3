-- How a TLS handshake is driven to its end (sslcom.tpp: upgrade_client_socket,
-- handshake, read, write). The results of OpenSSL and of the peer's first bytes
-- are inputs. A com that waits leaves its peer unmonitored.
import Mathlib.Tactic
import Socle.Lib.Run

namespace socle.tls

open lib.run

/-! ## Results -/

inductive ret_handshake
  | FATAL | ERROR | AGAIN | SUCCESS | BYPASS
deriving DecidableEq, Repr

def SSL_ERROR_WANT_READ : Int := 2
def SSL_ERROR_WANT_WRITE : Int := 3
def SSL_ERROR_SYSCALL : Int := 5

/-- A call of `SSL_connect` or `SSL_accept`: what it returns, `SSL_get_error`, `ERR_get_error`, and
`ocsp_cert_is_revoked` after it. -/
structure ssl_result where
  ret : Int
  err : Int
  err2 : Nat
  revoked : Int

/-- The handshake is over. -/
def ssl_result.completes (r : ssl_result) : Bool :=
  0 < r.ret && r.ret ≠ 2

/-- What a peek at the first bytes of an SSLCom peer finds: a ClientHello, not enough of one (or
nothing), or something that is not TLS. A virtual socket has a ClientHello at once when it is of
datagrams, and nothing otherwise. -/
inductive peek_result
  | hello | not_enough | not_tls
deriving DecidableEq, Repr

/-- `peer()`: nothing, something that is not a `baseSSLCom`, or one. -/
inductive peer_com
  | nullptr | not_ssl | ssl
deriving DecidableEq, Repr

/-! ## The com -/

/-- What `handshake` and its callers read and write. `peer_unmonitored` tells whether this com took
the peer's socket from the poller. No function of the code reads `completed` and `completes_now`: the
handshake is over, and was so in this call. -/
structure SSLCom where
  is_server : Bool
  peer_ : peer_com
  is_blocking : Bool := false
  auto_upgrade_ : Bool := true
  auto_upgraded_ : Bool := false
  bypass : Bool := false
  sslcom_ssl : Bool := false
  sslcom_peer_hello_received_ : Bool := false
  sslcom_waiting : Bool := true
  sslcom_fatal : Bool := false
  forced_read_ : Bool := false
  forced_write_ : Bool := false
  peer_unmonitored : Bool := false
  completed : Bool := false
  completes_now : Bool := false
deriving DecidableEq, Repr

namespace SSLCom

variable (com : SSLCom)

/-- `dynamic_cast<baseSSLCom*>(peer())` is not null. -/
def peer_scom : Bool :=
  com.peer_ = .ssl

def unmonitor_peer : SSLCom :=
  if com.peer_scom then { com with peer_unmonitored := true } else com

def monitor_peer : SSLCom :=
  if com.peer_scom then { com with peer_unmonitored := false } else com

/-- `sslcom_waiting` is `b` from now on. -/
def wait (b : Bool) : SSLCom :=
  { com with sslcom_waiting := b }

/-- `forced_read(true)`, `forced_write(true)`. -/
def force (r w : Bool) : SSLCom :=
  { com with forced_read_ := com.forced_read_ || r, forced_write_ := com.forced_write_ || w }

/-- `upgraded(true)`. -/
def upgraded : SSLCom :=
  { com with auto_upgraded_ := true }

/-- `SSL_connect` or `SSL_accept` was called. -/
def called (r : ssl_result) : SSLCom :=
  { com with completed := com.completed || r.completes,
             completes_now := com.completes_now || r.completes }

/-- Nothing was completed in a call that begins. -/
def begins : SSLCom :=
  { com with completes_now := false }

/-- `init_client` and `init_server`: a new `SSL`. -/
def init_ssl : SSLCom :=
  { com with sslcom_ssl := true, completed := false }

/-- `sslcom_peer_hello_received(true)`. -/
def hello_received : SSLCom :=
  { com with sslcom_peer_hello_received_ := true }

def bypass_me_and_peer : Bool × SSLCom :=
  if com.peer_scom then (true, { com with bypass := true }) else (false, com)

def waiting_peer_hello (p : peek_result) : Bool × SSLCom :=
  if com.sslcom_peer_hello_received_ then (true, com)
  else
    match com.peer_ with
    | .nullptr => (true, com.hello_received)
    -- peer not SSLCom type: it is not looked at, in this call or a later one
    | .not_ssl => (false, com)
    | .ssl =>
      match p with
      | .hello => (true, com.hello_received)
      | .not_enough => (false, com)
      | .not_tls => (false, com.bypass_me_and_peer.2)

/-- The rest of `upgrade_client_socket` after its `SSL_connect`. -/
def upgrade_result (r : ssl_result) : SSLCom :=
  if r.ret ≤ 0 then
    if com.is_blocking then com
    else if r.ret = -1 then
      -- since connect is not immediate, ignore all read events of the peer
      if r.err = SSL_ERROR_WANT_WRITE then com.unmonitor_peer.wait true
      else if r.err = SSL_ERROR_WANT_READ then com.unmonitor_peer.wait true
      else com.wait true
    else com
  else
    -- restore peer monitoring
    ((com.wait false).monitor_peer.force true true).upgraded

/-- `upgrade_client_socket`, with the result of its `SSL_connect`. -/
def upgrade_client_socket (p : peek_result) (r : ssl_result) : SSLCom :=
  let (ch, com) := com.waiting_peer_hello p
  if ch then
    if com.bypass then com else (com.init_ssl.called r).upgrade_result r
  else com

def upgrade_server_socket : SSLCom :=
  if com.bypass then com.wait true
  else if !com.auto_upgraded_ then (com.wait true).init_ssl.upgraded
  else com.wait true

end SSLCom

/-! ## The handshake -/

/-- What one call of `handshake` meets: the peer's bytes, the results of `SSL_connect` in
`upgrade_client_socket` and of `SSL_connect` or `SSL_accept` after it, and whether the filter of
SNIs to bypass has the name. -/
structure inputs where
  peek : peek_result
  upgrade : ssl_result
  filtered : Bool
  op : ssl_result

section
variable (i : inputs) (com : SSLCom)

/-- The first half of `handshake_peer_client`: is the ClientHello of the peer there? -/
def wait_for_hello : Bool × SSLCom :=
  if !com.sslcom_peer_hello_received_ then
    let (ch, com) := com.waiting_peer_hello i.peek
    if !ch then (false, com)
    else if com.auto_upgrade_ then (true, com.upgrade_client_socket i.peek i.upgrade)
    else (true, com)
  else (true, com)

/-- The second half: is its SNI one to bypass? -/
def filter_sni : Bool × SSLCom :=
  if com.sslcom_peer_hello_received_ && i.filtered then
    let (bypassed, com) := com.bypass_me_and_peer
    (!bypassed, com)
  else (true, com)

def handshake_peer_client : Bool × SSLCom :=
  let (come, com) := wait_for_hello i com
  if !come then (false, com) else filter_sni i com

def handshake_client : Int × SSLCom :=
  (i.op.ret, com.called i.op)

def handshake_server : Int × SSLCom :=
  let com := if com.auto_upgrade_ && !com.auto_upgraded_ then com.upgrade_server_socket else com
  (i.op.ret, com.called i.op)

/-- The part of `handshake` that looks at the result of OpenSSL. -/
def handshake_result (op_code : Int) : ret_handshake × SSLCom :=
  if op_code < 0 then
    if i.op.err = SSL_ERROR_WANT_READ then (.AGAIN, com.wait true)
    else if i.op.err = SSL_ERROR_WANT_WRITE then (.AGAIN, com.wait true)
    else if i.op.err = SSL_ERROR_SYSCALL then (.FATAL, com)
    else if i.op.err2 = 654741622 ∨ i.op.err2 = 654741605 then
      if i.op.revoked > 0 then (.ERROR, com)
      -- return again, we continue
      else (.AGAIN, com)
    else (.ERROR, com.wait true)
  else if op_code = 0 then
    -- shutdown OK, but connection failed
    (.ERROR, com.wait false)
  else if op_code = 2 then
    -- our internal signalling for bypass
    (.AGAIN, { com with bypass := true })
  else (.AGAIN, com.wait false)

def handshake : ret_handshake × SSLCom :=
  if !com.sslcom_ssl && !com.auto_upgrade_ then (.ERROR, com)
  else if !com.is_server then
    let (come, com) := handshake_peer_client i com
    if !come then (.AGAIN, com)
    else
      let (op_code, com) := handshake_client i com
      handshake_result i com op_code
  else
    let (op_code, com) := handshake_server i com
    handshake_result i com op_code

/-! ## Reading and writing -/

/-- What `SSL_read`, `SSL_peek` or `SSL_write` do after the handshake: the number of bytes, whether
the call is to be made again soon, and whether the socket is broken. -/
structure io_result where
  ret : Int
  again : Bool
  broken : Bool

/-- `read`. The first result is `none` when the com below it reads. -/
def read (io : io_result) : Option Int × SSLCom :=
  let go_on (com : SSLCom) : Option Int × SSLCom :=
    (some io.ret, { com.force io.again false with sslcom_fatal := com.sslcom_fatal || io.broken })
  if com.bypass then (none, com)
  -- non-blocking socket can be still opening
  else if com.sslcom_waiting then
    match handshake i com with
    | (.AGAIN, com) => if com.bypass then (none, com) else (some (-1), com)
    | (.ERROR, com) => (some 0, com)
    | (.FATAL, com) => (some 0, { com with sslcom_fatal := true })
    -- if we were waiting, force next round of read
    | (_, com) => go_on (com.force true false).monitor_peer
  else go_on com

def write (io : io_result) : Option Int × SSLCom :=
  let go_on (com : SSLCom) : Option Int × SSLCom :=
    (some io.ret, com.force false io.again)
  if com.bypass then (none, com)
  else if com.sslcom_waiting then
    match handshake i com with
    | (.AGAIN, com) => if com.bypass then (none, com) else (some 0, com)
    | (.ERROR, com) => (some (-1), com)
    | (.FATAL, com) => (some (-1), { com with sslcom_fatal := true })
    -- if we were waiting, force next round of write
    | (_, com) => go_on (com.force false true).monitor_peer
  else go_on com

end

/-! ## Runs -/

/-- A call of `handshake` in `read` or `write`: its result, whether the handshake is over with it,
whether more is pending, and whether the caller forced the next round and monitors the peer. -/
structure report where
  result : ret_handshake
  completes : Bool
  pending : Bool
  forced : Bool
  monitored : Bool

structure state where
  com : SSLCom
  last : Option report := none

inductive action
  -- `connect` and `accept_socket`; a result is not there when `SSL_accept` was not called
  | connect (p : peek_result) (r : ssl_result)
  | accept_socket (r : Option ssl_result)
  | read (i : inputs) (io : io_result)
  | write (i : inputs) (io : io_result)
  -- the loop took the flags, and read or wrote because of them
  | forced
  -- the other side was bypassed, and this one with it
  | bypassed

/-- More input is needed, or the connection is bypassed. Nothing that is not an SSLCom sends a
ClientHello. -/
def pending (i : inputs) (com : SSLCom) : Bool :=
  com.bypass ||
    if !com.is_server && !com.sslcom_peer_hello_received_ then com.peer_scom
    else i.op.ret < 0 && (i.op.err = SSL_ERROR_WANT_READ || i.op.err = SSL_ERROR_WANT_WRITE)

/-- What there is to tell of a call that left `com`, with the flag that it has to force. -/
def tell (i : inputs) (before com : SSLCom) (forced : Bool) : Option report :=
  if before.bypass || !before.sslcom_waiting then none
  else
    some { result := (handshake i before).1
           completes := (handshake i before).2.completes_now
           pending := pending i (handshake i before).2
           forced
           monitored := !com.peer_unmonitored }

/-- `accept_socket`, after the layer below it. -/
def accept_socket (r : Option ssl_result) (com : SSLCom) : SSLCom :=
  let com := com.upgrade_server_socket
  if com.bypass then com
  else
    match r with
    | none => com
    | some r =>
      let com := com.called r
      if r.ret > 0 then (com.wait false).force true true else com

def step (st : state) : action → Option state
  | .connect p r =>
    if st.com.is_server then none else some { com := st.com.upgrade_client_socket p r }
  | .accept_socket r => if st.com.is_server then some { com := accept_socket r st.com } else none
  | .read i io =>
    some { com := (read i st.com.begins io).2
           last := tell i st.com.begins (read i st.com.begins io).2
             (read i st.com.begins io).2.forced_read_ }
  | .write i io =>
    some { com := (write i st.com.begins io).2
           last := tell i st.com.begins (write i st.com.begins io).2
             (write i st.com.begins io).2.forced_write_ }
  | .forced => some { com := { st.com with forced_read_ := false, forced_write_ := false } }
  | .bypassed => some { com := { st.com with bypass := true } }

/-- A com for which nothing was done yet. -/
def start (is_server : Bool) (peer_ : peer_com) (is_blocking auto_upgrade_ : Bool) : state where
  com := { is_server, peer_, is_blocking, auto_upgrade_ }

/-! ## The law -/

/-- `handshake` tells that it succeeded when the handshake is over, that it is to be called again
only when more is pending, and an error otherwise. Its caller forces the next round when the
handshake is over, and monitors the peer. -/
structure Right (r : report) : Prop where
  success : r.result = .SUCCESS ↔ r.completes = true
  again : r.result = .AGAIN → r.pending = true
  error : r.completes = false → r.pending = false → r.result = .ERROR ∨ r.result = .FATAL
  forces : r.completes = true → r.forced = true ∧ r.monitored = true

/-- The last call was right, and the peer is monitored when the handshake is over. -/
structure Followed (st : state) : Prop where
  reports : ∀ r, st.last = some r → Right r
  monitored : st.com.completed = true → st.com.peer_unmonitored = false

section
variable (i : inputs) (com : SSLCom)

/-- The ClientHello of the peer is there. -/
def hello_there : Bool :=
  com.sslcom_peer_hello_received_ || com.peer_ = .nullptr || (com.peer_scom && i.peek = .hello)

/-- `handshake` calls `upgrade_client_socket`. -/
def upgrades : Bool :=
  !com.is_server && !com.sslcom_peer_hello_received_ && hello_there i com && com.auto_upgrade_

/-- `handshake` calls `SSL_connect` or `SSL_accept` itself. -/
def asks : Bool :=
  (com.sslcom_ssl || com.auto_upgrade_) &&
    (com.is_server || (hello_there i com && !(i.filtered && com.peer_scom)))

/-- The handshake is over in this call. -/
def finishes : Bool :=
  (upgrades i com && i.upgrade.completes) || (asks i com && i.op.completes)

/-- The certificate callback stopped OpenSSL, for a certificate that is not revoked. -/
def stopped : Bool :=
  asks i com && i.op.ret < 0 && i.op.err ≠ SSL_ERROR_WANT_READ && i.op.err ≠ SSL_ERROR_WANT_WRITE &&
    i.op.err ≠ SSL_ERROR_SYSCALL && (i.op.err2 = 654741622 || i.op.err2 = 654741605) &&
    i.op.revoked ≤ 0

/-- A client waits for the ClientHello of a peer that is no SSLCom. -/
def deaf : Bool :=
  (com.sslcom_ssl || com.auto_upgrade_) && !com.is_server && !com.sslcom_peer_hello_received_ &&
    com.peer_ = .not_ssl

end

/-- No `read` and no `write` that waits for the handshake sees its end, nor waits for the ClientHello
of a peer that is no SSLCom. -/
def Waits (st : state) : action → Prop
  | .read i _ | .write i _ => st.com.bypass = false → st.com.sslcom_waiting = true →
      finishes i st.com = false ∧ stopped i st.com = false ∧ deaf st.com = false
  | _ => True

/-! ## One call of `handshake` -/

/-- What each step keeps. -/
structure Monitored (com : SSLCom) : Prop where
  completed : com.completed = true → com.peer_unmonitored = false
  no_peer : com.peer_scom = false → com.peer_unmonitored = false
  server : com.is_server = true → com.peer_unmonitored = false

theorem Monitored.of_same {com com' : SSLCom} (h : Monitored com)
    (hcompleted : com'.completed = true → com.completed = true)
    (hpeer : com'.peer_scom = com.peer_scom) (hserver : com'.is_server = com.is_server)
    (hun : com'.peer_unmonitored = com.peer_unmonitored) : Monitored com' := by
  refine ⟨?_, ?_, ?_⟩
  · intro hc
    rw [hun]
    exact h.completed (hcompleted hc)
  · intro hp
    rw [hun]
    exact h.no_peer (hpeer ▸ hp)
  · intro hs
    rw [hun]
    exact h.server (hserver ▸ hs)

theorem Monitored.wait {com : SSLCom} (h : Monitored com) (b : Bool) : Monitored (com.wait b) :=
  h.of_same (fun hc => hc) rfl rfl rfl

theorem Monitored.force {com : SSLCom} (h : Monitored com) (r w : Bool) :
    Monitored (com.force r w) :=
  h.of_same (fun hc => hc) rfl rfl rfl

theorem Monitored.hello_received {com : SSLCom} (h : Monitored com) :
    Monitored com.hello_received :=
  h.of_same (fun hc => hc) rfl rfl rfl

theorem Monitored.upgraded {com : SSLCom} (h : Monitored com) : Monitored com.upgraded :=
  h.of_same (fun hc => hc) rfl rfl rfl

/-- `handshake_result` sets no more than two flags. -/
theorem handshake_result_com (i : inputs) (com : SSLCom) (op_code : Int) :
    ∃ waiting bypass, (handshake_result i com op_code).2 =
      { com with sslcom_waiting := waiting, bypass := bypass } := by
  unfold handshake_result
  repeat' split
  all_goals exact ⟨_, _, rfl⟩

theorem handshake_result_not_success (i : inputs) (com : SSLCom) (op_code : Int) :
    (handshake_result i com op_code).1 ≠ .SUCCESS ∧
      (handshake_result i com op_code).1 ≠ .BYPASS := by
  unfold handshake_result
  repeat' split
  all_goals exact ⟨by simp, by simp⟩

/-- No end of a handshake is told as one. -/
theorem handshake_not_success (i : inputs) (com : SSLCom) :
    (handshake i com).1 ≠ .SUCCESS ∧ (handshake i com).1 ≠ .BYPASS := by
  unfold handshake
  split
  · exact ⟨by simp, by simp⟩
  split
  · simp only
    split
    · exact ⟨by simp, by simp⟩
    · exact handshake_result_not_success i _ _
  · exact handshake_result_not_success i _ _

/-- The ClientHello is there, after the bytes `p`. -/
theorem waiting_peer_hello_come {com : SSLCom} {p : peek_result}
    (h : (com.waiting_peer_hello p).1 = true) :
    com.waiting_peer_hello p = (true, com.hello_received) := by
  unfold SSLCom.waiting_peer_hello at *
  split at h
  next hr =>
    rw [if_pos hr]
    unfold SSLCom.hello_received
    rw [← hr]
  next hr =>
    rw [if_neg hr]
    cases hp : com.peer_ with
    | nullptr => rfl
    | not_ssl =>
      simp only [hp] at h
      cases h
    | ssl =>
      simp only [hp] at h ⊢
      cases p with
      | hello => rfl
      | not_enough => cases h
      | not_tls => cases h

/-- The ClientHello is not there: more of it is pending, or there will be none. -/
theorem waiting_peer_hello_stay {com : SSLCom} {p : peek_result}
    (h : (com.waiting_peer_hello p).1 = false) :
    ∃ bypass, com.waiting_peer_hello p = (false, { com with bypass }) ∧
      com.sslcom_peer_hello_received_ = false := by
  unfold SSLCom.waiting_peer_hello at *
  split at h
  next => cases h
  next hr =>
    rw [if_neg hr]
    have hreceived : com.sslcom_peer_hello_received_ = false := by simpa using hr
    cases hp : com.peer_ with
    | nullptr =>
      simp only [hp] at h
      cases h
    | not_ssl => exact ⟨com.bypass, by simp [← hp], hreceived⟩
    | ssl =>
      simp only [hp] at h
      cases p with
      | hello => cases h
      | not_enough => exact ⟨com.bypass, by simp [← hp], hreceived⟩
      | not_tls =>
        exact ⟨true, by simp [SSLCom.bypass_me_and_peer, SSLCom.peer_scom, hp], hreceived⟩

theorem waiting_peer_hello_fst (i : inputs) (com : SSLCom) :
    (com.waiting_peer_hello i.peek).1 = hello_there i com := by
  unfold SSLCom.waiting_peer_hello hello_there SSLCom.peer_scom
  cases com.sslcom_peer_hello_received_ <;> cases com.peer_ <;> cases i.peek <;> simp

/-- The rest of `upgrade_client_socket` leaves alone what is not about waiting and monitoring. -/
theorem upgrade_result_same (com : SSLCom) (r : ssl_result) :
    (com.upgrade_result r).completes_now = com.completes_now ∧
      (com.upgrade_result r).bypass = com.bypass ∧
      (com.upgrade_result r).sslcom_peer_hello_received_ = com.sslcom_peer_hello_received_ ∧
      (com.upgrade_result r).is_server = com.is_server ∧
      (com.upgrade_result r).peer_ = com.peer_ := by
  unfold SSLCom.upgrade_result SSLCom.unmonitor_peer SSLCom.monitor_peer
  repeat' split
  all_goals exact ⟨rfl, rfl, rfl, rfl, rfl⟩

theorem unmonitor_monitored {com : SSLCom} (hcompleted : com.completed = false)
    (hclient : com.is_server = false) (hpeer : com.peer_scom = false → com.peer_unmonitored = false) :
    Monitored com.unmonitor_peer := by
  unfold SSLCom.unmonitor_peer
  split
  next hp =>
    refine ⟨?_, ?_, ?_⟩
    · intro hc
      rw [hcompleted] at hc
      cases hc
    · intro hn
      exact absurd (hp.symm.trans hn) (by decide)
    · intro hs
      rw [hclient] at hs
      cases hs
  next hp =>
    have hun := hpeer (by simpa using hp)
    exact ⟨fun _ => hun, fun _ => hun, fun _ => hun⟩

theorem monitor_monitored {com : SSLCom} (hpeer : com.peer_scom = false → com.peer_unmonitored = false) :
    Monitored com.monitor_peer := by
  unfold SSLCom.monitor_peer
  split
  next => exact ⟨fun _ => rfl, fun _ => rfl, fun _ => rfl⟩
  next hp =>
    have hun := hpeer (by simpa using hp)
    exact ⟨fun _ => hun, fun _ => hun, fun _ => hun⟩

/-- A com without a finished handshake. -/
theorem monitored_of_not_completed {com : SSLCom} (hcompleted : com.completed = false)
    (hclient : com.is_server = false) (hpeer : com.peer_scom = false → com.peer_unmonitored = false) :
    Monitored com := by
  refine ⟨?_, hpeer, ?_⟩
  · intro hc
    rw [hcompleted] at hc
    cases hc
  · intro hs
    rw [hclient] at hs
    cases hs

/-- `upgrade_client_socket` of a com that has the ClientHello. -/
theorem upgrade_at_hello {com : SSLCom} (p : peek_result) (r : ssl_result)
    (hreceived : com.sslcom_peer_hello_received_ = true) (hbypass : com.bypass = false) :
    com.upgrade_client_socket p r = (com.init_ssl.called r).upgrade_result r := by
  unfold SSLCom.upgrade_client_socket SSLCom.waiting_peer_hello
  simp [hreceived, hbypass]

theorem upgrade_result_monitored {com : SSLCom} {r : ssl_result}
    (hcompleted : com.completed = true → 0 < r.ret) (hclient : com.is_server = false)
    (hpeer : com.peer_scom = false → com.peer_unmonitored = false) :
    Monitored (com.upgrade_result r) := by
  unfold SSLCom.upgrade_result
  split
  next hle =>
    have hnot : com.completed = false := by
      by_contra hc
      have hpos := hcompleted (by simpa using hc)
      omega
    repeat' split
    · exact monitored_of_not_completed hnot hclient hpeer
    · exact (unmonitor_monitored hnot hclient hpeer).wait true
    · exact (unmonitor_monitored hnot hclient hpeer).wait true
    · exact (monitored_of_not_completed hnot hclient hpeer).wait true
    · exact monitored_of_not_completed hnot hclient hpeer
  next =>
    have hwait : Monitored (com.wait false).monitor_peer := monitor_monitored hpeer
    exact (hwait.force true true).upgraded

/-- `upgrade_client_socket` monitors the peer when the handshake is over at once. -/
theorem upgrade_monitored {com : SSLCom} (h : Monitored com) (hclient : com.is_server = false)
    (p : peek_result) (r : ssl_result) : Monitored (com.upgrade_client_socket p r) := by
  unfold SSLCom.upgrade_client_socket
  cases hhello : (com.waiting_peer_hello p).1 with
  | false =>
    obtain ⟨bypass, heq, -⟩ := waiting_peer_hello_stay hhello
    simp only [heq, Bool.false_eq_true, if_false]
    exact h.of_same (fun hc => hc) rfl rfl rfl
  | true =>
    simp only [waiting_peer_hello_come hhello, if_true]
    split
    · exact h.of_same (fun hc => hc) rfl rfl rfl
    · refine upgrade_result_monitored ?_ hclient h.no_peer
      intro hc
      have hdone : r.completes = true := by simpa [SSLCom.called, SSLCom.init_ssl] using hc
      simp only [ssl_result.completes, Bool.and_eq_true, decide_eq_true_eq] at hdone
      exact hdone.1

/-- What `wait_for_hello` comes to, for a client. -/
structure HelloSpec (i : inputs) (com : SSLCom) (r : Bool × SSLCom) : Prop where
  come : r.1 = hello_there i com
  completes_now : r.2.completes_now = (com.completes_now || (upgrades i com && i.upgrade.completes))
  client : r.2.is_server = false
  peer : r.2.peer_ = com.peer_
  going : r.1 = true → r.2.bypass = false
  received : r.2.sslcom_peer_hello_received_ = r.1
  monitored : Monitored com → Monitored r.2

theorem wait_for_hello_spec {i : inputs} {com : SSLCom} (hclient : com.is_server = false)
    (hbypass : com.bypass = false) : HelloSpec i com (wait_for_hello i com) := by
  have hfst := waiting_peer_hello_fst i com
  unfold wait_for_hello
  cases hr : com.sslcom_peer_hello_received_ with
  | true =>
    have hthere : hello_there i com = true := by simp [hello_there, hr]
    have hno : upgrades i com = false := by simp [upgrades, hr]
    exact ⟨hthere.symm, by simp [hno], hclient, rfl, fun _ => hbypass, hr, fun h => h⟩
  | false =>
    simp only [Bool.not_false, if_true]
    cases hthere : hello_there i com with
    | false =>
      rw [hthere] at hfst
      have hno : upgrades i com = false := by simp [upgrades, hthere]
      obtain ⟨bypass, heq, -⟩ := waiting_peer_hello_stay hfst
      simp only [heq, Bool.not_false, if_true]
      refine ⟨hthere.symm, by simp [hno], hclient, rfl, (fun h => by cases h), hr, fun h => ?_⟩
      exact h.of_same (fun hc => hc) rfl rfl rfl
    | true =>
      rw [hthere] at hfst
      have heq := waiting_peer_hello_come hfst
      simp only [heq, Bool.not_true, Bool.false_eq_true, if_false]
      cases hauto : com.auto_upgrade_ with
      | false =>
        have hno : upgrades i com = false := by simp [upgrades, hauto]
        have hauto' : com.hello_received.auto_upgrade_ = false := hauto
        simp only [hauto', Bool.false_eq_true, if_false]
        exact ⟨hthere.symm, by simp [hno, SSLCom.hello_received], hclient, rfl, fun _ => hbypass,
          rfl, fun h => h.hello_received⟩
      | true =>
        have hyes : upgrades i com = true := by simp [upgrades, hauto, hthere, hr, hclient]
        have hauto' : com.hello_received.auto_upgrade_ = true := hauto
        simp only [hauto', if_true]
        have hup : com.hello_received.upgrade_client_socket i.peek i.upgrade =
            (com.hello_received.init_ssl.called i.upgrade).upgrade_result i.upgrade :=
          upgrade_at_hello i.peek i.upgrade rfl hbypass
        obtain ⟨hnow, hbyp, hrec, hsrv, hpeer⟩ := upgrade_result_same
          (com.hello_received.init_ssl.called i.upgrade) i.upgrade
        rw [← hup] at hnow hbyp hrec hsrv hpeer
        refine ⟨hthere.symm, ?_, hsrv.trans hclient, hpeer, fun _ => hbyp.trans hbypass, hrec, ?_⟩
        · rw [hyes, Bool.true_and]
          exact hnow
        · intro h
          exact upgrade_monitored h.hello_received hclient i.peek i.upgrade

/-- What `handshake_peer_client` comes to. -/
structure PeerSpec (i : inputs) (com : SSLCom) (r : Bool × SSLCom) : Prop where
  come : r.1 = (hello_there i com && !(i.filtered && com.peer_scom))
  completes_now : r.2.completes_now = (com.completes_now || (upgrades i com && i.upgrade.completes))
  client : r.2.is_server = false
  going : r.1 = true → r.2.bypass = false ∧ r.2.sslcom_peer_hello_received_ = true
  staying : r.1 = false → r.2.bypass = true ∨ (r.2.sslcom_peer_hello_received_ = false ∧
    hello_there i com = false ∧ r.2.peer_scom = com.peer_scom)
  monitored : Monitored com → Monitored r.2

/-- A com that is there and not bypassed goes on, unless its SNI is one to bypass. -/
theorem filter_sni_spec (i : inputs) {c : SSLCom} (hreceived : c.sslcom_peer_hello_received_ = true) :
    ((i.filtered && c.peer_scom) = false ∧ filter_sni i c = (true, c)) ∨
      ((i.filtered && c.peer_scom) = true ∧ filter_sni i c = (false, { c with bypass := true })) := by
  unfold filter_sni SSLCom.bypass_me_and_peer
  rw [hreceived]
  cases i.filtered with
  | false => exact Or.inl ⟨rfl, rfl⟩
  | true =>
    cases hp : c.peer_scom with
    | false => exact Or.inl ⟨rfl, rfl⟩
    | true => exact Or.inr ⟨rfl, by simp⟩

theorem handshake_peer_client_spec {i : inputs} {com : SSLCom} (hclient : com.is_server = false)
    (hbypass : com.bypass = false) : PeerSpec i com (handshake_peer_client i com) := by
  have hspec := wait_for_hello_spec (i := i) hclient hbypass
  unfold handshake_peer_client
  generalize wait_for_hello i com = r at hspec ⊢
  obtain ⟨come, c⟩ := r
  obtain ⟨hcome, hnow, hsrv, hpeer, hgoing, hrec, hmon⟩ := hspec
  simp only at hcome hnow hsrv hpeer hgoing hrec hmon ⊢
  have hscom : c.peer_scom = com.peer_scom := by
    unfold SSLCom.peer_scom
    rw [hpeer]
  cases come with
  | false =>
    exact ⟨by simp [← hcome], hnow, hsrv, (fun h => by cases h),
      fun _ => Or.inr ⟨hrec, hcome.symm, hscom⟩, hmon⟩
  | true =>
    simp only [Bool.not_true, Bool.false_eq_true, if_false]
    rcases filter_sni_spec i hrec with ⟨hno, heq⟩ | ⟨hyes, heq⟩
    · rw [heq]
      rw [hscom] at hno
      exact ⟨by simp [← hcome, hno], hnow, hsrv, fun _ => ⟨hgoing rfl, hrec⟩,
        (fun h => by cases h), hmon⟩
    · rw [heq]
      rw [hscom] at hyes
      exact ⟨by simp [hyes], hnow, hsrv, (fun h => by cases h), fun _ => Or.inl rfl,
        fun h => (hmon h).of_same (fun hc => hc) rfl rfl rfl⟩

/-- How a call of `handshake` goes: it calls OpenSSL or not, from a com `c`. -/
inductive Goes (i : inputs) (com : SSLCom) : ret_handshake × SSLCom → Prop
  -- there is no SSL, and none is to be made
  | refused (h : asks i com = false) (hup : upgrades i com = false) : Goes i com (.ERROR, com)
  -- the peer has to send more, or it is bypassed
  | stays (c : SSLCom) (h : asks i com = false)
      (hpending : c.bypass = true ∨ (c.is_server = false ∧ c.sslcom_peer_hello_received_ = false ∧
        c.peer_scom = !deaf com))
      (hnow : c.completes_now = (com.completes_now || (upgrades i com && i.upgrade.completes)))
      (hmon : Monitored com → Monitored c) : Goes i com (.AGAIN, c)
  | calls (c : SSLCom) (h : asks i com = true) (hbypass : c.bypass = false)
      (hcome : c.is_server = true ∨ c.sslcom_peer_hello_received_ = true)
      (hnow : c.completes_now = (com.completes_now || (upgrades i com && i.upgrade.completes)))
      (hmon : Monitored com → Monitored c) :
      Goes i com (handshake_result i (c.called i.op) i.op.ret)

/-- Without a ClientHello, there is an SSLCom that may send one, or none is waited for. -/
theorem deaf_of_silent {i : inputs} {com : SSLCom} (hssl : (com.sslcom_ssl || com.auto_upgrade_) = true)
    (hclient : com.is_server = false) (hno : hello_there i com = false) :
    com.peer_scom = !deaf com := by
  simp only [hello_there, SSLCom.peer_scom, Bool.or_eq_false_iff] at hno
  unfold deaf SSLCom.peer_scom
  cases hp : com.peer_ with
  | nullptr => simp [hp] at hno
  | not_ssl => simp [hssl, hclient, hno.1.1]
  | ssl => simp

theorem handshake_goes (i : inputs) {com : SSLCom} (hbypass : com.bypass = false) :
    Goes i com (handshake i com) := by
  unfold handshake
  cases hssl : com.sslcom_ssl || com.auto_upgrade_ with
  | false =>
    rw [Bool.or_eq_false_iff] at hssl
    simp only [hssl.1, hssl.2, Bool.not_false, Bool.and_self, if_true]
    exact .refused (by simp [asks, hssl]) (by simp [upgrades, hssl])
  | true =>
    have hguard : (!com.sslcom_ssl && !com.auto_upgrade_) = false := by
      rw [← Bool.not_or, hssl]
      rfl
    simp only [hguard, Bool.false_eq_true, if_false]
    cases hserver : com.is_server with
    | false =>
      simp only [Bool.not_false, if_true]
      have hspec := handshake_peer_client_spec (i := i) hserver hbypass
      generalize handshake_peer_client i com = r at hspec ⊢
      obtain ⟨come, c⟩ := r
      obtain ⟨hcome, hnow, hsrv, hgoing, hstaying, hmon⟩ := hspec
      simp only at hcome hnow hsrv hgoing hstaying hmon ⊢
      cases come with
      | false =>
        have hno : asks i com = false := by
          simp only [asks, hserver, Bool.false_or, ← hcome, Bool.and_false]
        refine .stays c hno ?_ hnow hmon
        rcases hstaying rfl with hb | ⟨hr, hthere, hscom⟩
        · exact Or.inl hb
        · exact Or.inr ⟨hsrv, hr, hscom.trans (deaf_of_silent hssl hserver hthere)⟩
      | true =>
        have hyes : asks i com = true := by
          simp only [asks, hserver, Bool.false_or, ← hcome, Bool.and_true, hssl]
        exact .calls c hyes (hgoing rfl).1 (Or.inr (hgoing rfl).2) hnow hmon
    | true =>
      simp only [Bool.not_true, Bool.false_eq_true, if_false]
      have hyes : asks i com = true := by
        simp only [asks, hserver, Bool.true_or, hssl, Bool.and_true]
      have hno : upgrades i com = false := by
        simp only [upgrades, hserver, Bool.not_true, Bool.false_and]
      unfold handshake_server
      refine .calls _ hyes ?_ ?_ ?_ ?_
      · unfold SSLCom.upgrade_server_socket
        repeat' split
        all_goals exact hbypass
      · left
        unfold SSLCom.upgrade_server_socket
        repeat' split
        all_goals exact hserver
      · rw [hno, Bool.false_and, Bool.or_false]
        unfold SSLCom.upgrade_server_socket
        repeat' split
        all_goals rfl
      · intro h
        have hun := h.server hserver
        unfold SSLCom.upgrade_server_socket
        repeat' split
        all_goals exact ⟨fun _ => hun, fun _ => hun, fun _ => hun⟩

section
variable {i : inputs} {com : SSLCom}

theorem asks_completes (h : asks i com = true) (hf : finishes i com = false) :
    i.op.completes = false := by
  simp only [finishes, h, Bool.true_and, Bool.or_eq_false_iff] at hf
  exact hf.2

theorem handshake_monitored (hbypass : com.bypass = false) (hf : finishes i com = false)
    (h : Monitored com) : Monitored (handshake i com).2 := by
  have hgoes := handshake_goes i hbypass
  generalize handshake i com = r at hgoes ⊢
  cases hgoes with
  | refused _ _ => exact h
  | stays c _ _ _ hmon => exact hmon h
  | calls c hasks _ _ _ hmon =>
    obtain ⟨waiting, bypass, heq⟩ := handshake_result_com i (c.called i.op) i.op.ret
    rw [heq]
    refine (hmon h).of_same (fun hc => ?_) rfl rfl rfl
    simpa [SSLCom.called, asks_completes hasks hf] using hc

/-- A handshake that does not finish leaves the com monitored, with one of the three results that a
caller returns for. -/
theorem handshake_returns (hbypass : com.bypass = false) (hf : finishes i com = false)
    (h : Monitored com) : ∃ result c, handshake i com = (result, c) ∧ Monitored c ∧
      (result = .AGAIN ∨ result = .ERROR ∨ result = .FATAL) := by
  have hmon := handshake_monitored hbypass hf h
  obtain ⟨hsuccess, hnobypass⟩ := handshake_not_success i com
  refine ⟨(handshake i com).1, (handshake i com).2, rfl, hmon, ?_⟩
  cases hresult : (handshake i com).1 with
  | AGAIN => simp
  | ERROR => simp
  | FATAL => simp
  | SUCCESS => exact absurd hresult hsuccess
  | BYPASS => exact absurd hresult hnobypass

theorem write_monitored (io : io_result) (h : Monitored com)
    (hf : com.bypass = false → com.sslcom_waiting = true → finishes i com = false) :
    Monitored (write i com io).2 := by
  unfold write
  cases hbypass : com.bypass with
  | true => exact h
  | false =>
    cases hwaiting : com.sslcom_waiting with
    | false =>
      simp only [Bool.false_eq_true, if_false]
      exact h.force _ _
    | true =>
      obtain ⟨result, c, heq, hmon, hresult⟩ :=
        handshake_returns hbypass (hf hbypass hwaiting) h
      simp only [Bool.false_eq_true, if_false, if_true, heq]
      rcases hresult with rfl | rfl | rfl
      · simp only
        split
        · exact hmon
        · exact hmon
      · exact hmon
      · exact hmon.of_same (fun hc => hc) rfl rfl rfl

end

/-! ## Runs are right when they only wait -/

end socle.tls
