-- The OCSP query that does not block (sslcertval.cpp: OcspQuery). Each call of
-- run() goes on from the state of the last one, through a switch with
-- fall-throughs, and the functions it calls assign the state as well.
import Socle.OcspResponse
import Socle.Lib.Stream

namespace socle.ocsp.query

open crl status lib.stream

/-! ## Data -/

inductive state_t
  | ST_INIT | ST_CONNECTING | ST_CONNECTED | ST_REQ_INPROGRESS | ST_REQ_SENT | ST_RESP_RECEIVED
  | ST_FINISHED | ST_CLOSED
deriving DecidableEq, Repr

inductive yield_t
  | RET_CONNFAIL | RET_UNKNOWN | RET_REVOKED | RET_VALID | RET_UNKNOWNSTATUS | RET_NOOCSP_TARGETS
deriving DecidableEq, Repr

open state_t yield_t

/-- A tuple of `ocsp_targets`. -/
structure target where
  host : String
  port : String
  path : String
  ssl : Bool
deriving DecidableEq, Repr

/-- The text for `BIO_new_connect`. -/
def target.host_port (tup : target) : String :=
  if tup.port.isEmpty then tup.host else tup.host ++ ":" ++ tup.port

/-- What `BIO_new_connect` makes for a target. `connected` says that `BIO_do_connect` succeeded. -/
structure BIO where
  host_port : String
  connected : Bool := false
deriving DecidableEq, Repr

/-- What `OCSP_sendreq_new` makes. -/
structure OCSP_REQ_CTX where
  io : Option BIO
  path : String
  headers : List (String × String) := []
deriving DecidableEq, Repr

/-- `OcspQuery`, and what is recorded of its life: `states` has each value that `state_` is given,
`attempts` the target of each call of `BIO_new_connect`, `sends` what each call of
`OCSP_sendreq_nbio` gets, and `received` the responses it brought. `ocsp_urls` has the URLs of the
certificate, as far as `OCSP_parse_url` can parse them, and `current` is `ocsp_host` to
`ocsp_ssl`. -/
structure OcspQuery where
  cert_check : X509
  cert_issuer : X509
  ocsp_urls : List (Option target)
  conn_bio : Option BIO := none
  ocsp_req_ctx : Option OCSP_REQ_CTX := none
  ocsp_resp : Option OCSP_RESPONSE := none
  ocsp_targets : List target := []
  ocsp_target_index : Int := -1
  current : target := ⟨"", "", "", false⟩
  timer_ : Int
  state_ : state_t := ST_INIT
  yield_ : yield_t := RET_UNKNOWN
  states : List state_t := []
  attempts : List Int := []
  sends : List (Option OCSP_REQ_CTX) := []
  received : List OCSP_RESPONSE := []

/-- What the libraries answer during a call of `run`, and the times. -/
structure answers where
  BIO_new_connect : Int → Bool
  BIO_do_connect : Int
  BIO_should_retry : Bool
  OCSP_sendreq_new : Bool
  OCSP_REQ_CTX_add1_header : Bool × Bool
  OCSP_REQ_CTX_set1_req : Bool
  OCSP_sendreq_nbio : Int
  presp : Option OCSP_RESPONSE
  BIO_should_read : Bool
  BIO_should_write : Bool
  prepare_time : Int
  connect_time : Int
  connected_time : Int
  request_time : Int
  now : Int

def timeout_connect : Int := 2
def timeout_request : Int := 5

def SOCLE_VERSION : String := "0.9.30"

namespace OcspQuery

@[simps]
def set_state (s : state_t) (q : OcspQuery) : OcspQuery :=
  { q with state_ := s, states := q.states ++ [s] }

/-! ## The functions -/

def parse_cert (q : OcspQuery) : OcspQuery :=
  { q with ocsp_targets := q.ocsp_targets ++ q.ocsp_urls.filterMap id }

def do_init (q : OcspQuery) : Bool × OcspQuery :=
  let q := q.parse_cert
  if q.ocsp_targets.isEmpty then
    (false, { q.set_state ST_FINISHED with yield_ := RET_NOOCSP_TARGETS })
  else (true, q)

/-- The loop of `do_prepare_target`. -/
def prepare_loop (a : answers) : List target → Int → OcspQuery → OcspQuery
  | [], _, q => q
  | tup :: rest, skip, q =>
    let q := { q with ocsp_target_index := q.ocsp_target_index + 1 }
    if 0 < skip then prepare_loop a rest (skip - 1) q
    else
      let q := { q with timer_ := a.prepare_time, current := tup }
      if tup.ssl then prepare_loop a rest skip q
      else
        let bio : BIO := { host_port := tup.host_port }
        let q := { q with
          conn_bio := if a.BIO_new_connect q.ocsp_target_index then some bio else none
          attempts := q.attempts ++ [q.ocsp_target_index] }
        if q.conn_bio.isSome then q.set_state ST_CONNECTING else prepare_loop a rest skip q

def do_prepare_target (a : answers) (q : OcspQuery) : Bool × OcspQuery :=
  let skip := if 0 ≤ q.ocsp_target_index then q.ocsp_target_index else 0
  let q := prepare_loop a q.ocsp_targets skip { q with ocsp_target_index := -1 }
  (q.conn_bio.isSome, q)

/-- The part of `do_connect` that has a connection. -/
def connect_bio (a : answers) (bio : BIO) (q : OcspQuery) : Bool × OcspQuery :=
  if a.BIO_do_connect ≤ 0 then
    if a.BIO_should_retry then
      if timeout_connect < a.connect_time - q.timer_ then
        let q := { q with ocsp_target_index := q.ocsp_target_index + 1, conn_bio := none }
        (false, { q.set_state ST_CLOSED with yield_ := RET_CONNFAIL })
      else (false, q)
    else (q.state_ = ST_CONNECTED, q)
  else
    let q := { q with timer_ := a.connected_time, conn_bio := some { bio with connected := true } }
    (true, q.set_state ST_CONNECTED)

def do_connect (a : answers) (q : OcspQuery) : Bool × OcspQuery :=
  match q.conn_bio with
  | some bio => q.connect_bio a bio
  | none =>
    let q := (q.do_prepare_target a).2
    match q.conn_bio with
    | some bio => q.connect_bio a bio
    | none => (true, { q.set_state ST_FINISHED with yield_ := RET_NOOCSP_TARGETS })

/-- The label `err` of `do_send_request`. -/
def send_err (q : OcspQuery) : Bool × OcspQuery :=
  let q := { q with conn_bio := none }
  let q := q.set_state ST_CONNECTING
  (false, { q with ocsp_target_index := q.ocsp_target_index + 1 })

def add1_header (name value : String) (q : OcspQuery) : OcspQuery :=
  { q with ocsp_req_ctx := q.ocsp_req_ctx.map fun ctx =>
      { ctx with headers := ctx.headers ++ [(name, value)] } }

/-- The case `ST_REQ_INPROGRESS` of `do_send_request`. -/
def send_nbio (a : answers) (q : OcspQuery) : Bool × OcspQuery :=
  let q := { q with sends := q.sends ++ [q.ocsp_req_ctx] }
  if a.OCSP_sendreq_nbio = -1 then
    if timeout_request < a.request_time - q.timer_ then q.send_err
    else if a.BIO_should_read || a.BIO_should_write then (false, q)
    else q.send_err
  else if a.OCSP_sendreq_nbio = 1 then
    let q := { q with ocsp_resp := a.presp, received := q.received ++ a.presp.toList }
    (true, q.set_state ST_RESP_RECEIVED)
  else (false, q)

/-- The case `ST_CONNECTED` of `do_send_request`. -/
def send_new (a : answers) (q : OcspQuery) : Bool × OcspQuery :=
  if !a.OCSP_sendreq_new then { q with ocsp_req_ctx := none }.send_err
  else
    let q := { q with ocsp_req_ctx := some { io := q.conn_bio, path := q.current.path } }
    if !a.OCSP_REQ_CTX_add1_header.1 then q.send_err
    else
      let q := q.add1_header "Host" q.current.host
      if !a.OCSP_REQ_CTX_add1_header.2 then q.send_err
      else
        let q := q.add1_header "User-Agent" ("socle/" ++ SOCLE_VERSION)
        if !a.OCSP_REQ_CTX_set1_req then q.send_err
        else (q.set_state ST_REQ_INPROGRESS).send_nbio a

def do_send_request (a : answers) (q : OcspQuery) : Bool × OcspQuery :=
  match q.state_ with
  | ST_CONNECTED => q.send_new a
  | ST_REQ_INPROGRESS => q.send_nbio a
  | _ => (false, q)

def yield_of (revoked : Int) : yield_t :=
  if revoked = -1 then RET_UNKNOWN
  else if revoked = 0 then RET_VALID
  else if revoked = 1 then RET_REVOKED
  else RET_UNKNOWNSTATUS

section
variable (lib : openssl_ocsp) (a : answers)

def do_process_response (q : OcspQuery) : Bool × OcspQuery :=
  let q := q.set_state ST_FINISHED
  match q.ocsp_resp with
  | some resp =>
    let v := ocsp_verify_response lib a.now q.cert_check q.cert_issuer resp
    (true, { q with yield_ := yield_of v.revoked })
  | none => (false, { q with yield_ := RET_UNKNOWN })

/-- `run` from `ST_RESP_RECEIVED` on. -/
def run_process (q : OcspQuery) : Bool × OcspQuery :=
  (false, (q.do_process_response lib a).2)

/-- `run` from `ST_CONNECTED` on. -/
def run_send (q : OcspQuery) : Bool × OcspQuery :=
  let (sent, q) := q.do_send_request a
  if sent then (q.set_state ST_REQ_SENT).run_process lib a else (true, q)

/-- `run` from `ST_CONNECTING` on. -/
def run_connect (q : OcspQuery) : Bool × OcspQuery :=
  let (connected, q) := q.do_connect a
  if connected then (q.set_state ST_CONNECTED).run_send lib a
  else (q.state_ ≠ ST_CONNECTING, q)

/-- `run`. No case handles `ST_REQ_SENT` and `ST_CLOSED`. -/
def run (q : OcspQuery) : Bool × OcspQuery :=
  match q.state_ with
  | ST_INIT => q.do_init.2.run_connect lib a
  | ST_CONNECTING => q.run_connect lib a
  | ST_CONNECTED | ST_REQ_INPROGRESS => q.run_send lib a
  | ST_RESP_RECEIVED => q.run_process lib a
  | ST_FINISHED => (false, q)
  | ST_REQ_SENT | ST_CLOSED => (true, q)

end

/-- The constructor. -/
def new (cert issuer : X509) (ocsp_urls : List (Option target)) (time : Int) : OcspQuery where
  cert_check := cert
  cert_issuer := issuer
  ocsp_urls := ocsp_urls
  timer_ := time

end OcspQuery

/-! ## The law -/

section
variable (lib : openssl_ocsp)

/-- What holds at all times. The verdict is what `ocsp_verify_response` says of a response that was
received. -/
structure Safe (q : OcspQuery) : Prop where
  finished : q.states.Pairwise fun s s' => s = ST_FINISHED → s' = ST_FINISHED
  connected : ∀ sent ∈ q.sends, ∃ ctx bio, sent = some ctx ∧ ctx.io = some bio ∧
    bio.connected = true
  verdict : q.yield_ = RET_VALID ∨ q.yield_ = RET_REVOKED → ∃ resp ∈ q.received, ∃ now,
    q.yield_ = OcspQuery.yield_of
      (ocsp_verify_response lib now q.cert_check q.cert_issuer resp).revoked
  in_order : q.attempts.Pairwise (· < ·)

/-- The query at each time, when `run` is called again and again. -/
def at_time (q : OcspQuery) (calls : Nat → answers) : Nat → OcspQuery :=
  along (fun q a => (q.run lib a).2) q calls

/-- The call begins with a connection that is not established. -/
def Connecting (q : OcspQuery) : Prop :=
  q.state_ = ST_INIT ∨ q.state_ = ST_CONNECTING

/-- When the timer of the connection was started. -/
def started (q : OcspQuery) (a : answers) : Int :=
  if q.conn_bio.isSome then q.timer_ else a.prepare_time

/-- The attempt to connect is over because of its timeout. -/
def ConnectTimesOut (q : OcspQuery) (a : answers) : Prop :=
  Connecting q ∧ a.BIO_do_connect ≤ 0 ∧ a.BIO_should_retry = true ∧
    timeout_connect < a.connect_time - started q a

/-- The call only waits, for the connection or for the response. -/
def Waits (q : OcspQuery) (a : answers) : Prop :=
  Connecting q ∧ a.BIO_do_connect ≤ 0 ∧ a.BIO_should_retry = true ∧
      a.connect_time - started q a ≤ timeout_connect ∨
    q.state_ = ST_REQ_INPROGRESS ∧ a.OCSP_sendreq_nbio = -1 ∧
      a.request_time - q.timer_ ≤ timeout_request ∧
      (a.BIO_should_read = true ∨ a.BIO_should_write = true)

/-- The call begins with an operation that fails, and there is nothing to be retried. -/
def Fails (q : OcspQuery) (a : answers) : Prop :=
  Connecting q ∧ a.BIO_do_connect ≤ 0 ∧ a.BIO_should_retry = false ∨
    q.state_ = ST_REQ_INPROGRESS ∧ a.OCSP_sendreq_nbio ≠ -1 ∧ a.OCSP_sendreq_nbio ≠ 1

/-- Each attempt comes to an end: no attempt makes the calls wait for ever. -/
def Ends (q : OcspQuery) (calls : Nat → answers) : Prop :=
  ∀ n, ∃ m ≥ n, ¬ Waits (at_time lib q calls m) (calls m)

/-- The run is safe, and `ST_FINISHED` is reached when each attempt comes to an end. -/
structure Sound (q : OcspQuery) (calls : Nat → answers) : Prop where
  safe : ∀ n, Safe lib (at_time lib q calls n)
  reached : Ends lib q calls → ∃ n, (at_time lib q calls n).state_ = ST_FINISHED

/-- A target is left for a connection: it is not behind, it is not https, and it gets a `BIO`. -/
def TargetLeft (q : OcspQuery) (a : answers) : Prop :=
  ∃ i : Nat, q.ocsp_target_index ≤ i ∧ (∃ tup, (q.ocsp_urls.filterMap id)[i]? = some tup ∧
    tup.ssl = false) ∧ a.BIO_new_connect i = true

/-- Whenever a new connection is needed, a target is left for it. -/
def Supplied (q : OcspQuery) (calls : Nat → answers) : Prop :=
  ∀ n, Connecting (at_time lib q calls n) → (at_time lib q calls n).conn_bio = none →
    TargetLeft (at_time lib q calls n) (calls n)

/-- A target is always left, and when each attempt comes to an end, it is not by the timeout of a
connection, and not by a failure for ever. -/
structure Served (q : OcspQuery) (calls : Nat → answers) : Prop where
  left : Supplied lib q calls
  in_time : Ends lib q calls → ∀ n, ¬ ConnectTimesOut (at_time lib q calls n) (calls n)
  succeeds : Ends lib q calls → ∀ n, ∃ m ≥ n,
    ¬ Waits (at_time lib q calls m) (calls m) ∧ ¬ Fails (at_time lib q calls m) (calls m)

end

section
variable {lib : openssl_ocsp} {a : answers} {q : OcspQuery} {targets : List target}

/-! ## What each function keeps -/

/-- What every assignment keeps. The targets that were tried are behind. -/
structure Core (lib : openssl_ocsp) (targets : List target) (q : OcspQuery) : Prop where
  safe : Safe lib q
  ended : ST_FINISHED ∈ q.states → q.state_ = ST_FINISHED
  parsed : q.ocsp_urls.filterMap id = targets
  listed : q.ocsp_targets = targets
  tried : ∀ i ∈ q.attempts, i ≤ q.ocsp_target_index ∧ (q.conn_bio = none →
    i < q.ocsp_target_index)
  index_le : q.ocsp_target_index ≤ targets.length
  index_lt : q.conn_bio ≠ none → 0 ≤ q.ocsp_target_index ∧ q.ocsp_target_index < targets.length

theorem Core.set_state (h : Core lib targets q) (hq : q.state_ ≠ ST_FINISHED) (s : state_t) :
    Core lib targets (q.set_state s) where
  safe := { h.safe with
    finished := by
      rw [OcspQuery.set_state_states, List.pairwise_append]
      refine ⟨h.safe.finished, List.pairwise_singleton _ _, fun s' hs' _ _ hfinished => ?_⟩
      exact absurd (h.ended (hfinished ▸ hs')) hq }
  ended := by
    intro hmem
    rcases List.mem_append.mp hmem with hmem | hmem
    · exact absurd (h.ended hmem) hq
    · exact (List.mem_singleton.mp hmem).symm
  parsed := h.parsed
  listed := h.listed
  tried := h.tried
  index_le := h.index_le
  index_lt := h.index_lt

/-- The context for the request has a connection that was established. -/
def Open (q : OcspQuery) : Prop :=
  ∃ ctx bio, q.ocsp_req_ctx = some ctx ∧ ctx.io = some bio ∧ bio.connected = true

/-- The query came behind its target. -/
structure GivenUp (q q' : OcspQuery) : Prop where
  state : q'.state_ = ST_CONNECTING
  index : q'.ocsp_target_index = q.ocsp_target_index + 1

/-- The query stays with its request. -/
structure Pending (a : answers) (q q' : OcspQuery) : Prop where
  state : q'.state_ = ST_REQ_INPROGRESS
  index : q'.ocsp_target_index = q.ocsp_target_index
  ctx : Open q'
  conn : q'.conn_bio ≠ none
  stays : a.OCSP_sendreq_nbio = -1 ∧ a.request_time - q.timer_ ≤ timeout_request ∧
      (a.BIO_should_read = true ∨ a.BIO_should_write = true) ∨
    a.OCSP_sendreq_nbio ≠ -1 ∧ a.OCSP_sendreq_nbio ≠ 1

/-- The query has its response. -/
structure Answered (q : OcspQuery) : Prop where
  state : q.state_ = ST_RESP_RECEIVED
  received : ∀ resp, q.ocsp_resp = some resp → resp ∈ q.received

/-- What `do_send_request` can do. -/
def Sent (a : answers) (q : OcspQuery) (r : Bool × OcspQuery) : Prop :=
  r.1 = true ∧ Answered r.2 ∨ r.1 = false ∧ (GivenUp q r.2 ∨ Pending a q r.2)

/-- The connection is freed, and the index goes behind its target. -/
theorem Core.free (h : Core lib targets q) (hconn : q.conn_bio ≠ none) :
    Core lib targets { q with
      conn_bio := none
      ocsp_target_index := q.ocsp_target_index + 1 } := by
  obtain ⟨hnonneg, hlt⟩ := h.index_lt hconn
  refine { h with
    safe := { h.safe with }
    tried := fun i hi => ?_
    index_le := ?_
    index_lt := fun hnone => absurd rfl hnone }
  · have hle := (h.tried i hi).1
    change i ≤ q.ocsp_target_index + 1 ∧ (_ → i < q.ocsp_target_index + 1)
    exact ⟨by omega, fun _ => by omega⟩
  · change q.ocsp_target_index + 1 ≤ targets.length
    omega

theorem Core.send_err (h : Core lib targets q) (hq : q.state_ ≠ ST_FINISHED)
    (hconn : q.conn_bio ≠ none) :
    Core lib targets q.send_err.2 ∧ GivenUp q q.send_err.2 :=
  ⟨(h.free hconn).set_state hq ST_CONNECTING, rfl, rfl⟩

theorem Core.send_nbio (h : Core lib targets q) (hq : q.state_ = ST_REQ_INPROGRESS)
    (hconn : q.conn_bio ≠ none) (hopen : Open q) :
    Core lib targets (q.send_nbio a).2 ∧ Sent a q (q.send_nbio a) := by
  have hsent : Core lib targets { q with sends := q.sends ++ [q.ocsp_req_ctx] } := by
    obtain ⟨ctx, bio, hctx, hio, hbio⟩ := hopen
    refine { h with safe := { h.safe with connected := fun sent hmem => ?_ } }
    rcases List.mem_append.mp hmem with hmem | hmem
    · exact h.safe.connected sent hmem
    · exact ⟨ctx, bio, (List.mem_singleton.mp hmem).trans hctx, hio, hbio⟩
  have hne : q.state_ ≠ ST_FINISHED := by
    rw [hq]
    decide
  have hgiven := hsent.send_err hne hconn
  unfold OcspQuery.send_nbio
  by_cases hretry : a.OCSP_sendreq_nbio = -1
  · by_cases htime : timeout_request < a.request_time - q.timer_
    · simp only [if_pos hretry, if_pos htime]
      exact ⟨hgiven.1, Or.inr ⟨rfl, Or.inl ⟨rfl, rfl⟩⟩⟩
    · by_cases hio : (a.BIO_should_read || a.BIO_should_write) = true
      · simp only [if_pos hretry, if_neg htime, if_pos hio]
        exact ⟨hsent, Or.inr ⟨rfl, Or.inr ⟨hq, rfl, hopen, hconn,
          Or.inl ⟨hretry, not_lt.mp htime, by simpa using hio⟩⟩⟩⟩
      · simp only [if_pos hretry, if_neg htime, if_neg hio]
        exact ⟨hgiven.1, Or.inr ⟨rfl, Or.inl ⟨rfl, rfl⟩⟩⟩
  · by_cases hdone : a.OCSP_sendreq_nbio = 1
    · simp only [if_neg hretry, if_pos hdone]
      have hreceived : Core lib targets { q with
          sends := q.sends ++ [q.ocsp_req_ctx]
          ocsp_resp := a.presp
          received := q.received ++ a.presp.toList } :=
        { hsent with safe := { hsent.safe with
            verdict := fun hy => by
              obtain ⟨resp, hresp, hv⟩ := h.safe.verdict hy
              exact ⟨resp, List.mem_append_left _ hresp, hv⟩ } }
      refine ⟨hreceived.set_state hne _, Or.inl ⟨rfl, rfl, fun resp hresp => ?_⟩⟩
      have hpresp : a.presp = some resp := hresp
      change resp ∈ q.received ++ a.presp.toList
      simp [hpresp]
    · simp only [if_neg hretry, if_neg hdone]
      exact ⟨hsent, Or.inr ⟨rfl, Or.inr ⟨hq, rfl, hopen, hconn, Or.inr ⟨hretry, hdone⟩⟩⟩⟩

/-- The connection was established. -/
def Connected (q : OcspQuery) : Prop :=
  ∃ bio, q.conn_bio = some bio ∧ bio.connected = true

theorem Core.with_ctx (h : Core lib targets q) (ctx : Option OCSP_REQ_CTX) :
    Core lib targets { q with ocsp_req_ctx := ctx } :=
  { h with safe := { h.safe with } }

theorem Core.send_new (h : Core lib targets q) (hq : q.state_ = ST_CONNECTED)
    (hconn : Connected q) :
    Core lib targets (q.send_new a).2 ∧ Sent a q (q.send_new a) := by
  obtain ⟨bio, hbio, hconnected⟩ := hconn
  have hne : q.state_ ≠ ST_FINISHED := by
    rw [hq]
    decide
  have hsome : q.conn_bio ≠ none := by
    rw [hbio]
    exact Option.some_ne_none bio
  have hgiven : ∀ ctx, Core lib targets { q with ocsp_req_ctx := ctx }.send_err.2 ∧
      Sent a q { q with ocsp_req_ctx := ctx }.send_err := fun ctx =>
    ⟨((h.with_ctx ctx).send_err hne hsome).1, Or.inr ⟨rfl, Or.inl ⟨rfl, rfl⟩⟩⟩
  have hnew : ∀ headers, _ := fun headers =>
    ((h.with_ctx (some ⟨q.conn_bio, q.current.path, headers⟩)).set_state hne
      ST_REQ_INPROGRESS).send_nbio (a := a) rfl hsome ⟨_, bio, rfl, hbio, hconnected⟩
  unfold OcspQuery.send_new
  split
  · exact hgiven _
  · split
    · exact hgiven _
    · split
      · exact hgiven _
      · split
        · exact hgiven _
        · obtain ⟨hcore, hcases⟩ := hnew _
          refine ⟨hcore, hcases.imp id (And.imp id (Or.imp (fun hg => ?_) fun hp => ?_))⟩
          · exact ⟨hg.state, hg.index⟩
          · exact ⟨hp.state, hp.index, hp.ctx, hp.conn, hp.stays⟩

/-! ## The end of a call -/

theorem Core.do_process_response (h : Core lib targets q) (hq : q.state_ ≠ ST_FINISHED)
    (hreceived : ∀ resp, q.ocsp_resp = some resp → resp ∈ q.received) :
    Core lib targets (q.do_process_response lib a).2 ∧
      (q.do_process_response lib a).2.state_ = ST_FINISHED := by
  have hfinished := h.set_state hq ST_FINISHED
  unfold OcspQuery.do_process_response
  cases hresp : q.ocsp_resp with
  | none =>
    simp only [OcspQuery.set_state_ocsp_resp, hresp]
    refine ⟨{ hfinished with safe := { hfinished.safe with verdict := ?_ } }, rfl⟩
    rintro (hy | hy) <;> cases hy
  | some resp =>
    simp only [OcspQuery.set_state_ocsp_resp, hresp]
    refine ⟨{ hfinished with safe := { hfinished.safe with verdict := fun _ => ?_ } }, rfl⟩
    exact ⟨resp, hreceived resp hresp, a.now, rfl⟩

/-- A query between two calls, when its targets are known. -/
structure Running (lib : openssl_ocsp) (targets : List target) (q : OcspQuery) : Prop where
  core : Core lib targets q
  state : q.state_ = ST_CONNECTING ∨ q.state_ = ST_REQ_INPROGRESS ∨ q.state_ = ST_FINISHED ∨
    q.state_ = ST_CLOSED
  sending : q.state_ = ST_REQ_INPROGRESS → Open q ∧ q.conn_bio ≠ none

theorem run_send_running (hcore : Core lib targets (q.do_send_request a).2)
    (hsent : Sent a q (q.do_send_request a)) :
    Running lib targets (q.run_send lib a).2 ∧ ((q.run_send lib a).2.state_ = ST_FINISHED ∨
      GivenUp q (q.run_send lib a).2 ∨ Pending a q (q.run_send lib a).2) := by
  unfold OcspQuery.run_send
  rcases hsent with ⟨htrue, hanswered⟩ | ⟨hfalse, hrest⟩
  · simp only [htrue, if_true]
    have hne : (q.do_send_request a).2.state_ ≠ ST_FINISHED := by
      rw [hanswered.state]
      decide
    obtain ⟨hdone, hfinished⟩ := (hcore.set_state hne ST_REQ_SENT).do_process_response (a := a)
      (by simp) hanswered.received
    refine ⟨⟨hdone, Or.inr (Or.inr (Or.inl hfinished)), fun hs => ?_⟩, Or.inl hfinished⟩
    exact absurd (hfinished.symm.trans hs) (by decide)
  · simp only [hfalse, Bool.false_eq_true, if_false]
    refine ⟨⟨hcore, ?_, fun hs => ?_⟩, Or.inr hrest⟩
    · exact hrest.imp (fun hg => hg.state) fun hp => Or.inl hp.state
    · rcases hrest with hg | hp
      · exact absurd (hg.state.symm.trans hs) (by decide)
      · exact ⟨hp.ctx, hp.conn⟩

/-! ## Targets -/

/-- The target at `i` of a list gets a `BIO`, when the first one has the index `first`. -/
def Usable (a : answers) (rest : List target) (first : Int) (i : Nat) : Prop :=
  (∃ tup, rest[i]? = some tup ∧ tup.ssl = false) ∧ a.BIO_new_connect (first + i) = true

/-- The loop took the target at `i`, and tried some of those between `skip` and `i` in order. -/
def Taken (a : answers) (skip i : Nat) (q q' : OcspQuery) : Prop :=
  ∃ bio tup tried, tried.Pairwise (· < ·) ∧
    (∀ j ∈ tried, q.ocsp_target_index + 1 + skip ≤ j ∧ j ≤ q.ocsp_target_index + 1 + i) ∧
    q' = { q with
      state_ := ST_CONNECTING
      states := q.states ++ [ST_CONNECTING]
      conn_bio := some bio
      ocsp_target_index := q.ocsp_target_index + 1 + i
      timer_ := a.prepare_time
      current := tup
      attempts := q.attempts ++ tried }

theorem usable_zero {tup : target} {rest : List target} {first : Int} :
    Usable a (tup :: rest) first 0 ↔ tup.ssl = false ∧ a.BIO_new_connect first = true := by
  simp [Usable]

theorem usable_succ {tup : target} {rest : List target} {first : Int} {i : Nat} :
    Usable a (tup :: rest) first (i + 1) ↔ Usable a rest (first + 1) i := by
  have hnext : first + ((i + 1 : Nat) : Int) = first + 1 + i := by
    push_cast
    ring
  simp only [Usable, List.getElem?_cons_succ, hnext]

/-- What a later turn takes is taken, when this turn tried its own target at most. -/
theorem Taken.later {skip skip' i : Nat} {time : Int} {tup : target} {bio : Option BIO}
    {attempts : List Int} {q' : OcspQuery}
    (h : Taken a skip' i { q with
      ocsp_target_index := q.ocsp_target_index + 1, timer_ := time, current := tup, conn_bio := bio
      attempts := attempts } q')
    (hskip : skip ≤ skip' + 1)
    (hturn : attempts = q.attempts ∨
      skip = 0 ∧ attempts = q.attempts ++ [q.ocsp_target_index + 1]) :
    Taken a skip (i + 1) q q' := by
  obtain ⟨bio', tup', tried, hsorted, htried, rfl⟩ := h
  have hnext : q.ocsp_target_index + 1 + ((i + 1 : Nat) : Int) =
      q.ocsp_target_index + 1 + 1 + i := by
    push_cast
    ring
  simp only at htried
  rcases hturn with rfl | ⟨rfl, rfl⟩
  · refine ⟨bio', tup', tried, hsorted, fun j hj => ?_, ?_⟩
    · have := htried j hj
      omega
    · rw [hnext]
  · refine ⟨bio', tup', (q.ocsp_target_index + 1) :: tried, ?_, fun j hj => ?_, ?_⟩
    · refine List.pairwise_cons.mpr ⟨fun j hj => ?_, hsorted⟩
      have := htried j hj
      omega
    · rcases List.mem_cons.mp hj with rfl | hj
      · omega
      · have := htried j hj
        omega
    · rw [hnext, List.append_assoc]
      rfl

/-- What the loop can do: it takes a target, or there is none. -/
def Prepared (a : answers) (rest : List target) (skip : Nat) (q q' : OcspQuery) : Prop :=
  (∃ i, skip ≤ i ∧ Usable a rest (q.ocsp_target_index + 1) i ∧ Taken a skip i q q') ∨
    (∀ i, skip ≤ i → ¬ Usable a rest (q.ocsp_target_index + 1) i) ∧ q'.conn_bio = none ∧
      q'.states = q.states

/-- A turn leaves the rest to be done: it skips its target, or its target is not usable. -/
theorem Prepared.later {skip skip' : Nat} {time : Int} {tup tup' : target} {rest : List target}
    {bio : Option BIO} {attempts : List Int} {q' : OcspQuery}
    (h : Prepared a rest skip' { q with
      ocsp_target_index := q.ocsp_target_index + 1, timer_ := time, current := tup'
      conn_bio := bio, attempts := attempts } q')
    (hturn : skip = skip' + 1 ∧ attempts = q.attempts ∨
      skip = 0 ∧ skip' = 0 ∧ ¬ Usable a (tup :: rest) (q.ocsp_target_index + 1) 0 ∧
        (attempts = q.attempts ∨ attempts = q.attempts ++ [q.ocsp_target_index + 1])) :
    Prepared a (tup :: rest) skip q q' := by
  rcases h with ⟨i, hle, husable, htaken⟩ | ⟨hnone, hrest⟩
  · refine Or.inl ⟨i + 1, by omega, usable_succ.mpr husable, htaken.later (by omega) ?_⟩
    rcases hturn with ⟨-, hsame⟩ | ⟨hzero, -, -, htried⟩
    · exact Or.inl hsame
    · exact htried.imp id fun htried => ⟨hzero, htried⟩
  · refine Or.inr ⟨fun i hle husable => ?_, hrest⟩
    cases i with
    | zero =>
      rcases hturn with ⟨hskip, -⟩ | ⟨-, -, hfirst, -⟩
      · omega
      · exact hfirst husable
    | succ i => exact hnone i (by omega) (usable_succ.mp husable)

theorem prepare_loop_prepared (rest : List target) (skip : Nat) (q : OcspQuery)
    (hconn : q.conn_bio = none) :
    Prepared a rest skip q (OcspQuery.prepare_loop a rest skip q) := by
  induction rest generalizing skip q with
  | nil =>
    refine Or.inr ⟨fun i _ h => ?_, hconn, rfl⟩
    obtain ⟨⟨tup, htup, -⟩, -⟩ := h
    cases htup
  | cons tup rest ih =>
    cases skip with
    | succ skip =>
      have hskip : (0 : Int) < (skip + 1 : Nat) := by positivity
      have hpred : ((skip + 1 : Nat) : Int) - 1 = skip := by simp
      simp only [OcspQuery.prepare_loop, if_pos hskip, hpred]
      exact (ih skip { q with ocsp_target_index := q.ocsp_target_index + 1 } hconn).later
        (Or.inl ⟨rfl, rfl⟩)
    | zero =>
      have hskip : ¬ (0 : Int) < (0 : Nat) := by simp
      simp only [OcspQuery.prepare_loop, if_neg hskip]
      cases hssl : tup.ssl with
      | true =>
        simp only [if_true]
        refine Prepared.later (ih 0 { q with
          ocsp_target_index := q.ocsp_target_index + 1
          timer_ := a.prepare_time
          current := tup } hconn) (Or.inr ⟨rfl, rfl, ?_, Or.inl rfl⟩)
        simp [usable_zero, hssl]
      | false =>
        by_cases hnew : a.BIO_new_connect (q.ocsp_target_index + 1) = true
        · simp only [Bool.false_eq_true, if_false, hnew, if_true, Option.isSome_some]
          refine Or.inl ⟨0, le_refl 0, usable_zero.mpr ⟨hssl, hnew⟩, { host_port := tup.host_port },
            tup, [q.ocsp_target_index + 1], List.pairwise_singleton _ _, fun j hj => ?_, ?_⟩
          · rw [List.mem_singleton.mp hj]
            simp
          · simp only [OcspQuery.set_state, Int.natCast_zero, add_zero]
        · simp only [Bool.false_eq_true, if_false, hnew, Option.isSome_none]
          refine (ih 0 _ rfl).later (Or.inr ⟨rfl, rfl, ?_, Or.inr rfl⟩)
          simp [usable_zero, hnew]

theorem target_left_iff : TargetLeft q a ↔
    ∃ i, q.ocsp_target_index.toNat ≤ i ∧ Usable a (q.ocsp_urls.filterMap id) (-1 + 1) i := by
  refine exists_congr fun i => ?_
  simp only [Usable, Int.toNat_le, neg_add_cancel, zero_add]

theorem prepare_skip (n : Int) : (if 0 ≤ n then n else 0) = (n.toNat : Int) := by
  split <;> omega

theorem do_prepare_target_prepared (h : Core lib targets q) (hconn : q.conn_bio = none) :
    Prepared a targets q.ocsp_target_index.toNat { q with ocsp_target_index := -1 }
      (q.do_prepare_target a).2 := by
  have hloop := prepare_loop_prepared (a := a) q.ocsp_targets q.ocsp_target_index.toNat
    { q with ocsp_target_index := -1 } hconn
  rw [h.listed] at hloop
  unfold OcspQuery.do_prepare_target
  simp only [prepare_skip, h.listed]
  exact hloop

/-- Without a target that is left, there is no connection. -/
theorem no_target (h : Core lib targets q) (hconn : q.conn_bio = none)
    (hleft : ¬ TargetLeft q a) :
    (q.do_prepare_target a).2.conn_bio = none ∧
      (q.do_prepare_target a).2.states = q.states := by
  rcases do_prepare_target_prepared (a := a) h hconn with ⟨i, hle, husable, -⟩ | ⟨-, hrest⟩
  · rw [target_left_iff, h.parsed] at hleft
    exact absurd ⟨i, hle, husable⟩ hleft
  · exact hrest

/-- A target that is left is taken, and it is not behind. -/
theorem Core.do_prepare_target (h : Core lib targets q) (hq : q.state_ ≠ ST_FINISHED)
    (hconn : q.conn_bio = none) (hleft : TargetLeft q a) :
    Core lib targets (q.do_prepare_target a).2 ∧
      (q.do_prepare_target a).2.state_ = ST_CONNECTING ∧
      (q.do_prepare_target a).2.conn_bio ≠ none ∧
      (q.do_prepare_target a).2.timer_ = a.prepare_time ∧
      q.ocsp_target_index ≤ (q.do_prepare_target a).2.ocsp_target_index := by
  rw [target_left_iff, h.parsed] at hleft
  rcases do_prepare_target_prepared (a := a) h hconn with
    ⟨i, hle, husable, bio, tup, tried, hsorted, htried, heq⟩ | ⟨hnone, -⟩
  · rw [heq]
    obtain ⟨⟨tup', htup', -⟩, -⟩ := husable
    obtain ⟨hlt, -⟩ := List.getElem?_eq_some_iff.mp htup'
    simp only [Int.reduceNeg, neg_add_cancel, zero_add] at htried
    have hstate := h.set_state hq ST_CONNECTING
    refine ⟨{ hstate with
      safe := { hstate.safe with in_order := ?_ }
      tried := fun j hj => ⟨?_, fun hnone => absurd hnone (Option.some_ne_none bio)⟩
      index_le := ?_
      index_lt := fun _ => ⟨?_, ?_⟩ }, rfl, Option.some_ne_none bio, rfl, ?_⟩
    · refine List.pairwise_append.mpr ⟨h.safe.in_order, hsorted, fun j hj k hk => ?_⟩
      have hj' := (h.tried j hj).2 hconn
      have hk' := (htried k hk).1
      omega
    · rcases List.mem_append.mp hj with hj | hj
      · have hj' := (h.tried j hj).1
        simp only
        omega
      · have hj' := (htried j hj).2
        simp only
        omega
    all_goals
      simp only
      omega
  · obtain ⟨i, hle, husable⟩ := hleft
    exact absurd husable (hnone i hle)

/-! ## Connections -/

/-- The query when `BIO_do_connect` is called. -/
def aimed (a : answers) (q : OcspQuery) : OcspQuery :=
  if q.conn_bio.isSome then q else (q.do_prepare_target a).2

theorem do_connect_eq {bio : BIO} (h : (aimed a q).conn_bio = some bio) :
    q.do_connect a = (aimed a q).connect_bio a bio := by
  unfold OcspQuery.do_connect aimed at *
  cases hconn : q.conn_bio with
  | some bio' =>
    simp only [hconn, Option.isSome_some, if_true, Option.some.injEq] at h ⊢
    rw [h]
  | none =>
    simp only [hconn, Option.isSome_none, Bool.false_eq_true, if_false] at h ⊢
    rw [h]

/-- A query that is to connect: its connection is not established, or it has none. -/
structure ToConnect (lib : openssl_ocsp) (targets : List target) (a : answers) (q : OcspQuery) :
    Prop where
  core : Core lib targets q
  state : q.state_ = ST_CONNECTING ∨ q.state_ = ST_INIT ∧ q.conn_bio = none
  left : q.conn_bio = none → TargetLeft q a

theorem ToConnect.aimed (h : ToConnect lib targets a q) :
    Core lib targets (aimed a q) ∧ (aimed a q).state_ = ST_CONNECTING ∧
      (aimed a q).conn_bio ≠ none ∧ (aimed a q).timer_ = started q a ∧
      q.ocsp_target_index ≤ (aimed a q).ocsp_target_index := by
  unfold query.aimed started
  cases hconn : q.conn_bio with
  | some bio =>
    have hstate : q.state_ = ST_CONNECTING := by
      rcases h.state with hs | ⟨-, hnone⟩
      · exact hs
      · rw [hconn] at hnone
        cases hnone
    simp only [Option.isSome_some, if_true, hconn]
    exact ⟨h.core, hstate, Option.some_ne_none bio, trivial, le_refl _⟩
  | none =>
    simp only [Option.isSome_none, Bool.false_eq_true, if_false]
    refine h.core.do_prepare_target ?_ hconn (h.left hconn)
    rcases h.state with hs | ⟨hs, -⟩ <;> rw [hs] <;> decide

/-- The connection is tried in vain, and the query stays with it. -/
def InVain (a : answers) (q : OcspQuery) : Prop :=
  a.BIO_do_connect ≤ 0 ∧ (a.BIO_should_retry = false ∨
    a.BIO_should_retry = true ∧ a.connect_time - q.timer_ ≤ timeout_connect)

/-- The connection is over because of its timeout. -/
def TooLate (a : answers) (q : OcspQuery) : Prop :=
  a.BIO_do_connect ≤ 0 ∧ a.BIO_should_retry = true ∧
    timeout_connect < a.connect_time - q.timer_

theorem Core.connect_bio {bio : BIO} (h : Core lib targets q) (hq : q.state_ = ST_CONNECTING)
    (hconn : q.conn_bio = some bio) :
    InVain a q ∧ q.connect_bio a bio = (false, q) ∨
    TooLate a q ∧ (q.connect_bio a bio).1 = false ∧ Core lib targets (q.connect_bio a bio).2 ∧
      (q.connect_bio a bio).2.state_ = ST_CLOSED ∨
    0 < a.BIO_do_connect ∧ (q.connect_bio a bio).1 = true ∧
      Core lib targets (q.connect_bio a bio).2 ∧ Connected (q.connect_bio a bio).2 ∧
      (q.connect_bio a bio).2.ocsp_target_index = q.ocsp_target_index ∧
      (q.connect_bio a bio).2.state_ = ST_CONNECTED := by
  have hne : q.state_ ≠ ST_FINISHED := by
    rw [hq]
    decide
  have hsome : q.conn_bio ≠ none := by
    rw [hconn]
    exact Option.some_ne_none bio
  obtain ⟨hnonneg, hlt⟩ := h.index_lt hsome
  unfold OcspQuery.connect_bio
  by_cases hfailed : a.BIO_do_connect ≤ 0
  · by_cases hretry : a.BIO_should_retry = true
    · by_cases htime : timeout_connect < a.connect_time - q.timer_
      · simp only [if_pos hfailed, if_pos hretry, if_pos htime]
        have hclosed := (h.free hsome).set_state hne ST_CLOSED
        refine Or.inr (Or.inl ⟨⟨hfailed, hretry, htime⟩, trivial,
          { hclosed with safe := { hclosed.safe with verdict := ?_ } }, rfl⟩)
        rintro (hy | hy) <;> cases hy
      · simp only [if_pos hfailed, if_pos hretry, if_neg htime]
        exact Or.inl ⟨⟨hfailed, Or.inr ⟨hretry, not_lt.mp htime⟩⟩, trivial⟩
    · simp only [if_pos hfailed, if_neg hretry, hq]
      refine Or.inl ⟨⟨hfailed, Or.inl ?_⟩, ?_⟩
      · simpa using hretry
      · simp
  · simp only [if_neg hfailed]
    have hconnected := h.set_state hne ST_CONNECTED
    refine Or.inr (Or.inr ⟨not_le.mp hfailed, trivial, { hconnected with
      safe := { hconnected.safe with }
      ended := hconnected.ended
      tried := fun i hi => ⟨(h.tried i hi).1, fun hnone => ?_⟩
      index_lt := fun _ => ⟨hnonneg, hlt⟩ }, ⟨_, rfl, rfl⟩, rfl, rfl⟩)
    exact absurd hnone (Option.some_ne_none _)

/-! ## Calls -/

/-- How far a query is: the targets behind it, and whether it waits for a response. -/
def rank (q : OcspQuery) : Nat :=
  2 * q.ocsp_target_index.toNat + if q.state_ = ST_REQ_INPROGRESS then 1 else 0

/-- A call is done with the query, or it gets on. -/
def Advances (q q' : OcspQuery) : Prop :=
  q'.state_ = ST_FINISHED ∨ rank q < rank q'

theorem Core.send (h : Core lib targets q) (hq : q.state_ = ST_CONNECTED) (hconn : Connected q) :
    Running lib targets (q.run_send lib a).2 ∧ ((q.run_send lib a).2.state_ = ST_FINISHED ∨
      GivenUp q (q.run_send lib a).2 ∨ Pending a q (q.run_send lib a).2) := by
  have hsend : q.do_send_request a = q.send_new a := by
    rw [OcspQuery.do_send_request, hq]
  obtain ⟨hcore, hsent⟩ := h.send_new (a := a) hq hconn
  rw [← hsend] at hcore hsent
  exact run_send_running hcore hsent

theorem not_closed {q' : OcspQuery}
    (h : q'.state_ = ST_FINISHED ∨ GivenUp q q' ∨ Pending a q q') : q'.state_ ≠ ST_CLOSED := by
  have hstate : q'.state_ = ST_FINISHED ∨ q'.state_ = ST_CONNECTING ∨
      q'.state_ = ST_REQ_INPROGRESS :=
    h.imp id (Or.imp (fun hg => hg.state) fun hp => hp.state)
  rcases hstate with hs | hs | hs <;> rw [hs] <;> decide

/-- What a call does that begins without an established connection. -/
theorem ToConnect.run_connect (h : ToConnect lib targets a q) :
    Running lib targets (q.run_connect lib a).2 ∧
      (InVain a (query.aimed a q) ∧ (q.run_connect lib a).2.state_ ≠ ST_CLOSED ∧
          rank q ≤ rank (q.run_connect lib a).2 ∨
        TooLate a (query.aimed a q) ∧ (q.run_connect lib a).2.state_ = ST_CLOSED ∨
        0 < a.BIO_do_connect ∧ (q.run_connect lib a).2.state_ ≠ ST_CLOSED ∧
          Advances q (q.run_connect lib a).2) := by
  obtain ⟨hcore, hstate, hconn, -, hindex⟩ := h.aimed
  obtain ⟨bio, hbio⟩ := Option.ne_none_iff_exists'.mp hconn
  have hrank : rank q = 2 * q.ocsp_target_index.toNat := by
    unfold rank
    rcases h.state with hs | ⟨hs, -⟩ <;> simp [hs]
  have heq := do_connect_eq hbio
  have hnonneg := (hcore.index_lt hconn).1
  unfold OcspQuery.run_connect
  rw [heq]
  rcases hcore.connect_bio (a := a) hstate hbio with
    ⟨hvain, hstays⟩ | ⟨hlate, hfalse, hclosed, hs⟩ | ⟨hok, htrue, hdone, hconnected, hsame, hs⟩
  · simp only [hstays, Bool.false_eq_true, if_false]
    refine ⟨⟨hcore, Or.inl hstate, fun hs => absurd (hstate.symm.trans hs) (by decide)⟩,
      Or.inl ⟨hvain, fun hs => absurd (hstate.symm.trans hs) (by decide), ?_⟩⟩
    rw [hrank, rank, hstate]
    simp only [reduceCtorEq, if_false]
    omega
  · simp only [hfalse, Bool.false_eq_true, if_false]
    exact ⟨⟨hclosed, Or.inr (Or.inr (Or.inr hs)),
      fun hs' => absurd (hs.symm.trans hs') (by decide)⟩,
      Or.inr (Or.inl ⟨hlate, hs⟩)⟩
  · simp only [htrue, if_true]
    have hne : ((query.aimed a q).connect_bio a bio).2.state_ ≠ ST_FINISHED := by
      rw [hs]
      decide
    obtain ⟨hrunning, hcases⟩ := (hdone.set_state hne ST_CONNECTED).send (a := a) rfl hconnected
    refine ⟨hrunning, Or.inr (Or.inr ⟨hok, not_closed hcases, ?_⟩)⟩
    rcases hcases with hfinished | hgiven | hpending
    · exact Or.inl hfinished
    · refine Or.inr ?_
      have hnext := hgiven.index
      rw [OcspQuery.set_state_ocsp_target_index, hsame] at hnext
      rw [hrank, rank, hgiven.state, hnext]
      simp only [reduceCtorEq, if_false]
      omega
    · refine Or.inr ?_
      have hnext := hpending.index
      rw [OcspQuery.set_state_ocsp_target_index, hsame] at hnext
      rw [hrank, rank, hpending.state, hnext]
      simp only [if_true]
      omega

/-- A query that was never run. -/
structure Fresh (targets : List target) (q : OcspQuery) : Prop where
  state : q.state_ = ST_INIT
  yield : q.yield_ = RET_UNKNOWN
  conn : q.conn_bio = none
  unlisted : q.ocsp_targets = []
  index : q.ocsp_target_index = -1
  parsed : q.ocsp_urls.filterMap id = targets
  states : q.states = []
  attempts : q.attempts = []
  sends : q.sends = []

theorem Fresh.safe (h : Fresh targets q) : Safe lib q where
  finished := h.states ▸ List.Pairwise.nil
  connected := by simp [h.sends]
  verdict := by simp [h.yield]
  in_order := h.attempts ▸ List.Pairwise.nil

theorem Fresh.listed (h : Fresh targets q) : q.parse_cert.ocsp_targets = targets := by
  change q.ocsp_targets ++ q.ocsp_urls.filterMap id = targets
  rw [h.unlisted, h.parsed, List.nil_append]

theorem Fresh.core (h : Fresh targets q) : Core lib targets q.parse_cert where
  safe := { (h.safe : Safe lib q) with }
  ended := by simp [OcspQuery.parse_cert, h.states]
  parsed := h.parsed
  listed := h.listed
  tried := by simp [OcspQuery.parse_cert, h.attempts]
  index_le := by
    change q.ocsp_target_index ≤ targets.length
    rw [h.index]
    omega
  index_lt := fun hconn => absurd h.conn hconn

/-- With a target that is left, the certificate has targets. -/
theorem Fresh.init (h : Fresh targets q) (hleft : TargetLeft q a) :
    q.do_init.2 = q.parse_cert := by
  obtain ⟨i, -, ⟨tup, htup, -⟩, -⟩ := hleft
  unfold OcspQuery.do_init
  rw [if_neg]
  rw [h.listed, ← h.parsed, List.isEmpty_iff]
  intro hnil
  rw [hnil] at htup
  cases htup

/-- What a call can do. -/
structure Called (lib : openssl_ocsp) (targets : List target) (a : answers) (q q' : OcspQuery) :
    Prop where
  running : Running lib targets q'
  closed : q'.state_ = ST_CLOSED ↔ q.state_ = ST_CLOSED ∨ ConnectTimesOut q a
  outcome : q'.state_ = ST_CLOSED ∨ (Waits q a ∨ Fails q a) ∧ rank q ≤ rank q' ∨ Advances q q'

theorem Connecting.not_closed (h : Connecting q) : q.state_ ≠ ST_CLOSED := by
  rcases h with hs | hs <;> rw [hs] <;> decide

theorem ToConnect.called (h : ToConnect lib targets a q) :
    Called lib targets a q (q.run_connect lib a).2 := by
  obtain ⟨hrunning, hcases⟩ := h.run_connect
  have hq : Connecting q := h.state.symm.imp And.left id
  have htimer := h.aimed.2.2.2.1
  rcases hcases with ⟨⟨hle, hstays⟩, hopen, hrank⟩ | ⟨⟨hle, hretry, hlate⟩, hclosed⟩ |
    ⟨hok, hopen, hadvances⟩
  · rw [htimer] at hstays
    refine ⟨hrunning, iff_of_false hopen ?_, Or.inr (Or.inl ⟨?_, hrank⟩)⟩
    · rintro (hs | ⟨-, -, hretry, hlate⟩)
      · exact hq.not_closed hs
      · rcases hstays with hfailed | ⟨-, htime⟩
        · exact absurd (hfailed.symm.trans hretry) Bool.false_ne_true
        · exact absurd hlate (not_lt.mpr htime)
    · rcases hstays with hfailed | ⟨hretry, htime⟩
      · exact Or.inr (Or.inl ⟨hq, hle, hfailed⟩)
      · exact Or.inl (Or.inl ⟨hq, hle, hretry, htime⟩)
  · rw [htimer] at hlate
    exact ⟨hrunning, iff_of_true hclosed (Or.inr ⟨hq, hle, hretry, hlate⟩), Or.inl hclosed⟩
  · refine ⟨hrunning, iff_of_false hopen ?_, Or.inr (Or.inr hadvances)⟩
    rintro (hs | ⟨-, hle, -⟩)
    · exact hq.not_closed hs
    · exact absurd hle (not_le.mpr hok)

theorem Fresh.called (h : Fresh targets q) (hleft : TargetLeft q a) :
    Called lib targets a q (q.run lib a).2 := by
  have hto : ToConnect lib targets a q.parse_cert :=
    ⟨h.core, Or.inr ⟨h.state, h.conn⟩, fun _ => hleft⟩
  have hrun : q.run lib a = q.parse_cert.run_connect lib a := by
    simp only [OcspQuery.run, h.state, h.init hleft]
  rw [hrun]
  exact ⟨hto.called.running, hto.called.closed, hto.called.outcome⟩

theorem run_finished (h : q.state_ = ST_FINISHED) : (q.run lib a).2 = q := by
  simp only [OcspQuery.run, h]

theorem run_closed (h : q.state_ = ST_CLOSED) : (q.run lib a).2 = q := by
  simp only [OcspQuery.run, h]

theorem Running.called (h : Running lib targets q)
    (hleft : Connecting q → q.conn_bio = none → TargetLeft q a) :
    Called lib targets a q (q.run lib a).2 := by
  rcases h.state with hs | hs | hs | hs
  · have hrun : q.run lib a = q.run_connect lib a := by simp only [OcspQuery.run, hs]
    rw [hrun]
    exact ToConnect.called ⟨h.core, Or.inl hs, hleft (Or.inr hs)⟩
  · have hrun : q.run lib a = q.run_send lib a := by simp only [OcspQuery.run, hs]
    have hsend : q.do_send_request a = q.send_nbio a := by
      rw [OcspQuery.do_send_request, hs]
    obtain ⟨hopen, hconn⟩ := h.sending hs
    obtain ⟨hcore, hsent⟩ := h.core.send_nbio (a := a) hs hconn hopen
    rw [← hsend] at hcore hsent
    obtain ⟨hrunning, hcases⟩ := run_send_running hcore hsent
    rw [hrun]
    refine ⟨hrunning, iff_of_false (not_closed hcases) ?_, Or.inr ?_⟩
    · rintro (hclosed | ⟨hclosed | hclosed, -⟩) <;> exact absurd (hs.symm.trans hclosed) (by decide)
    have hnonneg := (h.core.index_lt hconn).1
    rcases hcases with hfinished | hgiven | hpending
    · exact Or.inr (Or.inl hfinished)
    · refine Or.inr (Or.inr ?_)
      rw [rank, rank, hs, hgiven.state, hgiven.index]
      simp only [reduceCtorEq, if_true, if_false]
      omega
    · refine Or.inl ⟨?_, ?_⟩
      · exact hpending.stays.imp (fun hw => Or.inr ⟨hs, hw⟩) fun hf => Or.inr ⟨hs, hf⟩
      · rw [rank, rank, hs, hpending.state, hpending.index]
  · rw [run_finished hs]
    refine ⟨h, iff_of_false ?_ ?_, Or.inr (Or.inr (Or.inl hs))⟩
    · rw [hs]
      decide
    · rintro (hclosed | ⟨hclosed | hclosed, -⟩) <;> exact absurd (hs.symm.trans hclosed) (by decide)
  · rw [run_closed hs]
    exact ⟨h, iff_of_true hs (Or.inl hs), Or.inl hs⟩

/-- A query between two calls. -/
def Between (lib : openssl_ocsp) (targets : List target) (q : OcspQuery) : Prop :=
  Fresh targets q ∨ Running lib targets q

theorem Between.called (h : Between lib targets q)
    (hleft : Connecting q → q.conn_bio = none → TargetLeft q a) :
    Called lib targets a q (q.run lib a).2 := by
  rcases h with hfresh | hrunning
  · exact hfresh.called (hleft (Or.inl hfresh.state) hfresh.conn)
  · exact hrunning.called hleft

theorem Between.safe (h : Between lib targets q) : Safe lib q :=
  h.elim (fun hfresh => hfresh.safe) fun hrunning => hrunning.core.safe

/-- No rank is above the number of the targets. -/
theorem Between.rank_le (h : Between lib targets q) : rank q ≤ 2 * targets.length + 1 := by
  have hindex : q.ocsp_target_index ≤ targets.length := by
    rcases h with hfresh | hrunning
    · rw [hfresh.index]
      omega
    · exact hrunning.core.index_le
  unfold rank
  split <;> omega

/-! ## The state that is overwritten -/

section
variable {states : List state_t}

theorem send_nbio_states (h : states <+: q.states) : states <+: (q.send_nbio a).2.states := by
  unfold OcspQuery.send_nbio
  simp only
  split_ifs
  · exact h.trans (List.prefix_append _ _)
  · exact h
  · exact h.trans (List.prefix_append _ _)
  · exact h.trans (List.prefix_append _ _)
  · exact h

theorem send_new_states (h : states <+: q.states) : states <+: (q.send_new a).2.states := by
  unfold OcspQuery.send_new
  simp only
  split_ifs
  · exact h.trans (List.prefix_append _ _)
  · exact h.trans (List.prefix_append _ _)
  · exact h.trans (List.prefix_append _ _)
  · exact h.trans (List.prefix_append _ _)
  · exact send_nbio_states (h.trans (List.prefix_append _ _))

theorem do_send_request_states (h : states <+: q.states) :
    states <+: (q.do_send_request a).2.states := by
  unfold OcspQuery.do_send_request
  split
  · exact send_new_states h
  · exact send_nbio_states h
  · exact h

theorem do_process_response_states (h : states <+: q.states) :
    states <+: (q.do_process_response lib a).2.states := by
  unfold OcspQuery.do_process_response
  simp only
  split <;> exact h.trans (List.prefix_append _ _)

theorem run_send_states (h : states <+: q.states) : states <+: (q.run_send lib a).2.states := by
  unfold OcspQuery.run_send
  have hsent := do_send_request_states (a := a) h
  simp only
  split
  · exact do_process_response_states (hsent.trans (List.prefix_append _ _))
  · exact hsent

end

/-- A query that finishes because it has no target is connected right after. -/
theorem run_connect_overwrites (hconn : q.conn_bio = none)
    (hnone : (q.do_prepare_target a).2.conn_bio = none) :
    ¬ Safe lib (q.run_connect lib a).2 := by
  have hdo : q.do_connect a =
      (true, { (q.do_prepare_target a).2.set_state ST_FINISHED with
        yield_ := RET_NOOCSP_TARGETS }) := by
    simp only [OcspQuery.do_connect, hconn, hnone]
  intro hsafe
  have hprefix : (q.do_prepare_target a).2.states ++ [ST_FINISHED] ++ [ST_CONNECTED] <+:
      (q.run_connect lib a).2.states := by
    unfold OcspQuery.run_connect
    simp only [hdo, if_true]
    exact run_send_states (List.prefix_refl _)
  have hpair := hsafe.finished.sublist hprefix.sublist
  rw [List.append_assoc, List.pairwise_append, List.singleton_append,
    List.pairwise_cons] at hpair
  exact absurd (hpair.2.1.1 ST_CONNECTED (List.mem_singleton_self _) rfl) (by decide)

theorem Core.run_connect_overwrites (h : Core lib targets q) (hconn : q.conn_bio = none)
    (hleft : ¬ TargetLeft q a) : ¬ Safe lib (q.run_connect lib a).2 :=
  query.run_connect_overwrites hconn (no_target h hconn hleft).1

theorem Between.run_overwrites (h : Between lib targets q) (hq : Connecting q)
    (hconn : q.conn_bio = none) (hleft : ¬ TargetLeft q a) : ¬ Safe lib (q.run lib a).2 := by
  rcases h with hfresh | hrunning
  · have hrun : q.run lib a = q.do_init.2.run_connect lib a := by
      simp only [OcspQuery.run, hfresh.state]
    rw [hrun]
    by_cases hempty : q.parse_cert.ocsp_targets.isEmpty = true
    · simp only [OcspQuery.do_init, if_pos hempty]
      rw [List.isEmpty_iff] at hempty
      refine query.run_connect_overwrites hconn ?_
      simp only [OcspQuery.do_prepare_target, OcspQuery.set_state_ocsp_targets, hempty]
      exact hconn
    · simp only [OcspQuery.do_init, if_neg hempty]
      exact (hfresh.core : Core lib targets q.parse_cert).run_connect_overwrites hconn hleft
  · have hs : q.state_ = ST_CONNECTING := by
      rcases hq with hs | hs
      · rcases hrunning.state with hs' | hs' | hs' | hs' <;> rw [hs] at hs' <;> cases hs'
      · exact hs
    have hrun : q.run lib a = q.run_connect lib a := by simp only [OcspQuery.run, hs]
    rw [hrun]
    exact hrunning.core.run_connect_overwrites hconn hleft

/-! ## Runs -/

section
variable {calls : Nat → answers}

theorem at_time_succ (n : Nat) :
    at_time lib q calls (n + 1) = ((at_time lib q calls n).run lib (calls n)).2 :=
  along_succ n

/-- As long as a target is left when one is needed, the query is one between two calls. -/
theorem between_of_left (hq : Fresh targets q) (hleft : Supplied lib q calls) (n : Nat) :
    Between lib targets (at_time lib q calls n) :=
  along_kept (P := Between lib targets)
    (C := fun q a => Connecting q → q.conn_bio = none → TargetLeft q a)
    (fun _ _ h hl => Or.inr (h.called hl).running) (Or.inl hq) hleft n

/-- A run that is safe has a target left whenever one is needed. -/
theorem left_of_safe (hq : Fresh targets q) (hsafe : ∀ n, Safe lib (at_time lib q calls n))
    (n : Nat) : Between lib targets (at_time lib q calls n) ∧
      (Connecting (at_time lib q calls n) → (at_time lib q calls n).conn_bio = none →
        TargetLeft (at_time lib q calls n) (calls n)) := by
  have hleft : ∀ n, Between lib targets (at_time lib q calls n) →
      Connecting (at_time lib q calls n) → (at_time lib q calls n).conn_bio = none →
        TargetLeft (at_time lib q calls n) (calls n) := by
    intro n hbetween hconnecting hconn
    by_contra hnone
    have hnext := hsafe (n + 1)
    rw [at_time_succ] at hnext
    exact hbetween.run_overwrites hconnecting hconn hnone hnext
  have hbetween : Between lib targets (at_time lib q calls n) := by
    induction n with
    | zero => exact Or.inl hq
    | succ n ih =>
      rw [at_time_succ]
      exact Or.inr (ih.called (hleft n ih)).running
  exact ⟨hbetween, hleft n hbetween⟩

theorem finished_stays {n m : Nat} (h : n ≤ m)
    (hn : (at_time lib q calls n).state_ = ST_FINISHED) :
    (at_time lib q calls m).state_ = ST_FINISHED :=
  along_stays (P := fun q : OcspQuery => q.state_ = ST_FINISHED)
    (fun _ _ hs => by rw [run_finished hs]; exact hs) h hn

theorem closed_stays {n m : Nat} (h : n ≤ m)
    (hn : (at_time lib q calls n).state_ = ST_CLOSED) :
    (at_time lib q calls m).state_ = ST_CLOSED :=
  along_stays (P := fun q : OcspQuery => q.state_ = ST_CLOSED)
    (fun _ _ hs => by rw [run_closed hs]; exact hs) h hn

theorem Connecting.not_finished (h : Connecting q) : q.state_ ≠ ST_FINISHED := by
  rcases h with hs | hs <;> rw [hs] <;> decide

/-- A query that finishes had no timeout of a connection. -/
theorem in_time_of_finished (hq : Fresh targets q) (hleft : Supplied lib q calls) {m : Nat}
    (hm : (at_time lib q calls m).state_ = ST_FINISHED) (n : Nat) :
    ¬ ConnectTimesOut (at_time lib q calls n) (calls n) := by
  intro hlate
  rcases Nat.lt_or_ge n m with hlt | hle
  · have hclosed : (at_time lib q calls (n + 1)).state_ = ST_CLOSED := by
      rw [at_time_succ]
      exact ((between_of_left hq hleft n).called (hleft n)).closed.mpr (Or.inr hlate)
    exact absurd ((closed_stays hlt hclosed).symm.trans hm) (by decide)
  · exact hlate.1.not_finished (finished_stays hle hm)

theorem settled_of_finished (h : q.state_ = ST_FINISHED) : ¬ Waits q a ∧ ¬ Fails q a := by
  constructor <;> rintro (⟨hq, -⟩ | ⟨hs, -⟩)
  · exact hq.not_finished h
  · exact absurd (h.symm.trans hs) (by decide)
  · exact hq.not_finished h
  · exact absurd (h.symm.trans hs) (by decide)

theorem never_closed (hq : Fresh targets q) (hleft : Supplied lib q calls)
    (hin_time : ∀ n, ¬ ConnectTimesOut (at_time lib q calls n) (calls n)) (n : Nat) :
    (at_time lib q calls n).state_ ≠ ST_CLOSED := by
  induction n with
  | zero =>
    have hinit : (at_time lib q calls 0).state_ = ST_INIT := hq.state
    rw [hinit]
    decide
  | succ n ih =>
    rw [at_time_succ]
    intro hclosed
    rcases ((between_of_left hq hleft n).called (hleft n)).closed.mp hclosed with hs | hlate
    · exact ih hs
    · exact hin_time n hlate

/-- A query whose attempts neither time out nor fail for ever finishes: the rank cannot rise
again and again. -/
theorem finishes (hq : Fresh targets q) (hleft : Supplied lib q calls)
    (hin_time : ∀ n, ¬ ConnectTimesOut (at_time lib q calls n) (calls n))
    (hsucceeds : ∀ n, ∃ m ≥ n, ¬ Waits (at_time lib q calls m) (calls m) ∧
      ¬ Fails (at_time lib q calls m) (calls m)) :
    ∃ n, (at_time lib q calls n).state_ = ST_FINISHED := by
  have hopen := never_closed hq hleft hin_time
  have hcalled : ∀ n, Called lib targets (calls n) (at_time lib q calls n)
      (at_time lib q calls (n + 1)) := fun n => by
    rw [at_time_succ]
    exact (between_of_left hq hleft n).called (hleft n)
  refine reached_of_rank (fun q => q.state_ = ST_FINISHED) rank (2 * targets.length + 1)
    (fun n hn => ?_) (fun n hmoves hn => ?_) (fun n _ => (between_of_left hq hleft n).rank_le)
    hsucceeds
  · rcases (hcalled n).outcome with hs | ⟨-, hle⟩ | hs | hlt
    · exact absurd hs (hopen _)
    · exact hle
    · exact absurd hs hn
    · exact hlt.le
  · rcases (hcalled n).outcome with hs | ⟨hw | hf, -⟩ | hs | hlt
    · exact absurd hs (hopen _)
    · exact absurd hw hmoves.1
    · exact absurd hf hmoves.2
    · exact absurd hs hn
    · exact hlt

end

theorem fresh_new (cert issuer : X509) (ocsp_urls : List (Option target)) (time : Int) :
    Fresh (ocsp_urls.filterMap id) (OcspQuery.new cert issuer ocsp_urls time) where
  state := rfl
  yield := rfl
  conn := rfl
  unlisted := rfl
  index := rfl
  parsed := rfl
  states := rfl
  attempts := rfl
  sends := rfl

end

/-- A query is sound exactly when it always has a target left for a new connection, and when the
attempts that come to an end do it neither by the timeout of a connection nor by failures
only. -/
theorem queries_come_to_an_end (lib : openssl_ocsp) (cert issuer : X509)
    (ocsp_urls : List (Option target)) (time : Int) (calls : Nat → answers) :
    Sound lib (OcspQuery.new cert issuer ocsp_urls time) calls ↔
      Served lib (OcspQuery.new cert issuer ocsp_urls time) calls := by
  have hq := fresh_new cert issuer ocsp_urls time
  constructor
  · intro h
    have hleft := fun n => (left_of_safe hq h.safe n).2
    refine ⟨hleft, fun hends => ?_, fun hends n => ?_⟩
    · obtain ⟨m, hm⟩ := h.reached hends
      exact in_time_of_finished hq hleft hm
    · obtain ⟨m, hm⟩ := h.reached hends
      exact ⟨max n m, le_max_left n m, settled_of_finished (finished_stays (le_max_right n m) hm)⟩
  · intro h
    exact ⟨fun n => (between_of_left hq h.left n).safe, fun hends =>
      finishes hq h.left (h.in_time hends) (h.succeeds hends)⟩

/-- The answers of libraries of which nothing is asked. -/
def no_answers : answers where
  BIO_new_connect := fun _ => false
  BIO_do_connect := 0
  BIO_should_retry := false
  OCSP_sendreq_new := true
  OCSP_REQ_CTX_add1_header := (true, true)
  OCSP_REQ_CTX_set1_req := true
  OCSP_sendreq_nbio := 0
  presp := none
  BIO_should_read := false
  BIO_should_write := false
  prepare_time := 0
  connect_time := 0
  connected_time := 0
  request_time := 0
  now := 0

/-- An OCSP responder that is reached over https. -/
def https_target : target where
  host := "h"
  port := "443"
  path := "/"
  ssl := true

/-- All OCSP URLs of a certificate are https: its query finishes, and then sends over no
connection. -/
theorem a_query_of_https_targets_sends :
    ¬ ∀ (lib : openssl_ocsp) (cert issuer : X509) (ocsp_urls : List (Option target)) (time : Int)
      (calls : Nat → answers), Sound lib (OcspQuery.new cert issuer ocsp_urls time) calls := by
  intro hall
  have h := (hall openssl_id revoked_cert issuer_cert [some https_target] 0 fun _ => no_answers).safe 1
  have hsent : (none : Option BIO) ∈ (at_time openssl_id
      (OcspQuery.new revoked_cert issuer_cert [some https_target] 0) (fun _ => no_answers) 1).sends.map
        fun sent => sent.bind fun ctx => ctx.io := by decide
  obtain ⟨sent, hmem, hio⟩ := List.mem_map.mp hsent
  obtain ⟨ctx, bio, rfl, hctx, -⟩ := h.connected sent hmem
  rw [Option.bind_some, hctx] at hio
  cases hio

end socle.ocsp.query
