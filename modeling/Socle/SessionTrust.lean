-- Resumed sessions (sslcom.tpp: load_session_if_needed, store_session_if_needed
-- and the two places that end a handshake). Client connections share one cache
-- of sessions, and a connection that resumes a session is verified by it.
import Socle.Lib.Run
import Socle.VerifyCallbacks

namespace socle.sessions

open verify crl status stapling callbacks lib.run

/-! ## What OpenSSL knows -/

/-- `SSL_SESSION`: the `n`-th session of the handshake of an `SSL`. -/
structure SSL_SESSION where
  ssl : Nat
  n : Nat
deriving DecidableEq, Repr

/-- `SSL`: its number in the order of `SSL_new`, and the session of `SSL_set_session`. -/
structure SSL where
  id : Nat
  session : Option SSL_SESSION := none

/-- The end of a handshake: `SSL_session_reused`, the number of the session that
`SSL_get0_session` gives after a full handshake, and `SSL_SESSION_is_resumable` of it. -/
structure connected where
  reused : Bool
  n : Nat
  resumable : Bool

/-- The flags of `SSL_CTX_set_session_cache_mode`. -/
def SSL_SESS_CACHE_CLIENT : Nat := 0x001
def SSL_SESS_CACHE_NO_INTERNAL : Nat := 0x300

/-- The mode that `client_ctx_setup` sets. -/
def session_cache_mode : Nat := SSL_SESS_CACHE_NO_INTERNAL

/-! ## A client connection -/

/-- `host()` and `port()` of the owner. -/
structure HostCX where
  host : List UInt8
  port : List UInt8

/-- A client connection: what decides which session it uses. -/
structure client where
  com : baseSSLCom
  sslcom_sni : List UInt8 := []
  owner_cx : Option HostCX
  no_tickets : Bool
  sslcom_ssl : Option SSL := none

abbrev session_cache_t := ptr_cache (List UInt8) SSL_SESSION

/-- `"r-"`. -/
def pref : List UInt8 := [0x72, 0x2d]

/-- The key in `store_session_if_needed`. -/
def store_key (c : client) (cx : HostCX) : List UInt8 :=
  let current_sni := if c.sslcom_sni.length > 0 then c.sslcom_sni else []
  if current_sni.length > 0 then pref ++ current_sni
  else pref ++ (cx.host ++ [0x3a] ++ cx.port)

/-- The key in `load_session_if_needed`. -/
def load_key (c : client) (cx : HostCX) : List UInt8 :=
  let current_sni := if c.sslcom_sni.length > 0 then c.sslcom_sni else []
  if current_sni.length > 0 then pref ++ current_sni
  else pref ++ (cx.host ++ [0x3a] ++ cx.port)

/-- `load_session_if_needed`: the session for `SSL_set_session`. The cache has no check of the
age, so the time is of no account. -/
def load_session_if_needed (c : client) (cache : session_cache_t) :
    Option (Option SSL_SESSION × session_cache_t) :=
  if !c.no_tickets then
    match c.owner_cx with
    | some cx => cache.get 0 (load_key c cx)
    | none => some (none, cache)
  else some (none, cache)

/-- `init_client`, as far as it is about the session. -/
def init_client (id : Nat) (c : client) (cache : session_cache_t) :
    Option (client × session_cache_t) :=
  (load_session_if_needed c cache).map fun r =>
    ({ c with sslcom_ssl := some { id, session := r.1 } }, r.2)

/-- `store_session_if_needed` of a client. -/
def store_session_if_needed (ssl : SSL) (d : connected) (c : client) (cache : session_cache_t) :
    Option (Bool × client × session_cache_t) :=
  if !c.no_tickets then
    match c.owner_cx with
    | some cx =>
      if !d.reused then
        if c.com.verify_bitcheck .VRF_OK then
          if d.resumable then
            -- only resumable, crystal OK sessions will be trusted for resumption
            if c.com.verify_status_ = verify_status_t.VRF_OK.val then
              (cache.set (store_key c cx) ⟨ssl.id, d.n⟩).map fun r => (true, c, r.2)
            else some (true, c, cache)
          else some (false, c, cache)
        else some (false, c, cache)
      else
        -- we trust sites we have already connected to!
        some (false,
          { c with com := (c.com.verify_bitreset .VRF_NOTTESTED).verify_bitset .VRF_OK }, cache)
    | none => some (false, c, cache)
  else some (false, c, cache)

/-! ## Runs -/

/-- A session that was put into the cache, with its connection and with the status at the end of
the call, after all checks. -/
structure stored_session where
  ssl : Nat
  key : List UInt8
  session : SSL_SESSION
  status : BitVec 32

/-- A session that verified a connection. -/
structure reused_session where
  ssl : Nat
  key : List UInt8
  session : SSL_SESSION

/-- The clients and what they share. No function of the code reads `stored` and `reused`. -/
structure state where
  fac : SSLFactory
  session_cache : session_cache_t
  clients : Nat → client
  -- how many `SSL_new` were there
  made : Nat := 0
  stored : List stored_session := []
  reused : List reused_session := []

/-- What can happen to client `i`. `remote` and `validated` tell what `check_cert` finds. -/
inductive action
  -- a ClientHello of the peer, with an SNI
  | hello (i : Nat) (sni : List UInt8)
  | init_client (i : Nat)
  | callback (i : Nat) (e : event)
  -- `SSL_connect` succeeds in `upgrade_client_socket`
  | upgrade_client_socket (i : Nat) (d : connected) (remote validated : Bool)
  -- `SSL_connect` succeeds in `handshake`
  | handshake (i : Nat) (d : connected) (remote validated : Bool)
  | new_session_callback (i : Nat) (d : connected)

namespace state

/-- Client `i` becomes `c`. -/
def put (st : state) (i : Nat) (c : client) : state :=
  { st with clients := Function.update st.clients i c }

end state

/-- What `store_session_if_needed` is about to put into the cache. -/
def puts (ssl : SSL) (d : connected) (c : client) (status : BitVec 32) : List stored_session :=
  match c.owner_cx with
  | some cx =>
    if c.no_tickets = false ∧ d.reused = false ∧ d.resumable = true ∧
        c.com.verify_status_ = verify_status_t.VRF_OK.val then
      [{ ssl := ssl.id, key := store_key c cx, session := ⟨ssl.id, d.n⟩, status }]
    else []
  | none => []

/-- The session that is about to verify the connection. -/
def reuses (ssl : SSL) (d : connected) (c : client) : List reused_session :=
  match c.owner_cx, ssl.session with
  | some cx, some session =>
    if c.no_tickets = false ∧ d.reused = true then
      [{ ssl := ssl.id, key := store_key c cx, session }]
    else []
  | _, _ => []

/-- OpenSSL resumes only a session that was set. -/
def possible (ssl : SSL) (d : connected) : Bool :=
  !d.reused || ssl.session.isSome

/-- The end of `upgrade_client_socket`: `store_session_if_needed`, then `check_cert`. -/
def ends_upgrade (ssl : SSL) (d : connected) (remote validated : Bool) (c : client)
    (cache : session_cache_t) : Option (client × session_cache_t) :=
  (store_session_if_needed ssl d c cache).map fun r =>
    ({ r.2.1 with com := check_cert remote validated r.2.1.com }, r.2.2)

/-- The end of `handshake`: `check_cert`, then `store_session_if_needed`. -/
def ends_handshake (ssl : SSL) (d : connected) (remote validated : Bool) (c : client)
    (cache : session_cache_t) : Option (client × session_cache_t) :=
  (store_session_if_needed ssl d { c with com := check_cert remote validated c.com } cache).map
    fun r => (r.2.1, r.2.2)

/-- Is it a call that OpenSSL makes in the course of a handshake, or what others do? -/
def in_course : event → Bool
  | .check_cert .. | .store_session _ => false
  | _ => true

/-- Client `i` and the cache after the end of a handshake, which left `r`, and what is to be
remembered of it. -/
def state.ended (st : state) (i : Nat) (r : client × session_cache_t) (puts : List stored_session)
    (reuses : List reused_session) : state :=
  { st.put i r.1 with
    session_cache := r.2, stored := puts ++ st.stored, reused := reuses ++ st.reused }

/-- What an action makes of the clients. -/
def step (lib : openssl) (st : state) : action → Option state
  | .hello i sni =>
    if (st.clients i).sslcom_ssl.isNone then
      some (st.put i { st.clients i with sslcom_sni := sni })
    else none
  | .init_client i =>
    (init_client st.made (st.clients i) st.session_cache).map fun r =>
      { st.put i r.1 with session_cache := r.2, made := st.made + 1 }
  | .callback i e =>
    if in_course e then
      (callbacks.step lib ⟨(st.clients i).com, st.fac⟩ e).map fun c =>
        { st.put i { st.clients i with com := c.com } with fac := c.fac }
    else none
  | .upgrade_client_socket i d remote validated =>
    match (st.clients i).sslcom_ssl with
    | some ssl =>
      if possible ssl d then
        (ends_upgrade ssl d remote validated (st.clients i) st.session_cache).map fun r =>
          st.ended i r (puts ssl d (st.clients i) r.1.com.verify_status_)
            (reuses ssl d (st.clients i))
      else none
    | none => none
  | .handshake i d remote validated =>
    match (st.clients i).sslcom_ssl with
    | some ssl =>
      if possible ssl d then
        (ends_handshake ssl d remote validated (st.clients i) st.session_cache).map fun r =>
          let c := { st.clients i with com := check_cert remote validated (st.clients i).com }
          st.ended i r (puts ssl d c r.1.com.verify_status_) (reuses ssl d c)
      else none
    | none => none
  | .new_session_callback i d =>
    match (st.clients i).sslcom_ssl with
    | some ssl =>
      -- OpenSSL makes this call for clients only in a mode that has the flag
      if session_cache_mode &&& SSL_SESS_CACHE_CLIENT ≠ 0 then
        if (st.clients i).com.verify_bitcheck .VRF_REVOKED then some st
        else
          (store_session_if_needed ssl d (st.clients i) st.session_cache).map fun r =>
            st.ended i r.2 (puts ssl d (st.clients i) r.2.1.com.verify_status_)
              (reuses ssl d (st.clients i))
      else none
    | none => none

/-- What a client is set up with. -/
structure setup where
  opt : SSLComOptions
  owner_cx : Option HostCX
  no_tickets : Bool

/-- Clients that have not done anything yet, and an empty cache. -/
def start (fac : SSLFactory) (max_size : Nat) (clients : Nat → setup) : state where
  fac := fac
  session_cache := { mode_ := .LRU, max_size_ := max_size, dbs_ := some 0 }
  clients i :=
    { com := { opt := (clients i).opt }
      owner_cx := (clients i).owner_cx
      no_tickets := (clients i).no_tickets }

/-! ## The law -/

/-- A session that verified a connection was put into the cache under the same key, in the full
handshake of an earlier connection that was verified after all of its checks and nothing else. Both
functions take the same key. -/
structure Earned (st : state) : Prop where
  stored : ∀ r ∈ st.reused, ∃ s ∈ st.stored, s.key = r.key ∧ s.session = r.session ∧
    s.session.ssl = s.ssl ∧ s.ssl < r.ssl ∧ s.status = verify_status_t.VRF_OK.val
  same_key : ∀ i cx, store_key (st.clients i) cx = load_key (st.clients i) cx

/-- No `upgrade_client_socket` stores a session and then finds that the name is wrong. -/
def NamedFirst (st : state) : action → Prop
  | .upgrade_client_socket i d remote validated =>
    ∀ ssl, (st.clients i).sslcom_ssl = some ssl →
      puts ssl d (st.clients i) (st.clients i).com.verify_status_ ≠ [] →
        remote = true → validated = true
  | _ => True

/-- A session in the cache, or one that an `SSL` has, was stored under its key by a connection that
came before `limit`. -/
def Vouched (st : state) (limit : Nat) (key : List UInt8) (session : SSL_SESSION) : Prop :=
  ∃ s ∈ st.stored, s.key = key ∧ s.session = session ∧ s.session.ssl = s.ssl ∧ s.ssl < limit ∧
    s.status = verify_status_t.VRF_OK.val

/-- What each step keeps. -/
structure Trusted (st : state) : Prop where
  cache : st.session_cache.Stores (Vouched st st.made)
  loaded : ∀ i ssl, (st.clients i).sslcom_ssl = some ssl → ssl.id < st.made ∧
    ∀ session, ssl.session = some session → ∃ cx, (st.clients i).owner_cx = some cx ∧
      Vouched st ssl.id (load_key (st.clients i) cx) session
  reused : ∀ r ∈ st.reused, Vouched st r.ssl r.key r.session

/-! ## One call -/

theorem mem_puts {ssl : SSL} {d : connected} {c : client} {status : BitVec 32}
    {s : stored_session} : s ∈ puts ssl d c status ↔ ∃ cx, c.owner_cx = some cx ∧
      (c.no_tickets = false ∧ d.reused = false ∧ d.resumable = true ∧
        c.com.verify_status_ = verify_status_t.VRF_OK.val) ∧
      s = { ssl := ssl.id, key := store_key c cx, session := ⟨ssl.id, d.n⟩, status } := by
  unfold puts
  cases c.owner_cx with
  | none => simp
  | some cx =>
    simp only [Option.some.injEq]
    split
    next h =>
      simp only [List.mem_singleton]
      exact ⟨fun hs => ⟨cx, rfl, h, hs⟩, fun ⟨cx', hcx, _, hs⟩ => hcx ▸ hs⟩
    next h =>
      simp only [List.not_mem_nil, false_iff]
      rintro ⟨cx', -, h', -⟩
      exact h h'

theorem mem_reuses {ssl : SSL} {d : connected} {c : client} {r : reused_session}
    (h : r ∈ reuses ssl d c) : ∃ cx session, c.owner_cx = some cx ∧ ssl.session = some session ∧
      r = { ssl := ssl.id, key := store_key c cx, session } := by
  unfold reuses at h
  split at h
  next cx session hcx hsession =>
    split at h
    · rw [List.mem_singleton] at h
      exact ⟨cx, session, hcx, hsession, h⟩
    · cases h
  next => cases h

/-- `store_session_if_needed` changes no more than the status of a client, and puts no more into the
cache than `puts` says. -/
theorem store_spec {ssl : SSL} {d : connected} {c : client} {cache : session_cache_t}
    {r : Bool × client × session_cache_t} (h : store_session_if_needed ssl d c cache = some r)
    (status : BitVec 32) :
    (∃ com, r.2.1 = { c with com }) ∧ ∀ P, cache.Stores P →
      (∀ s ∈ puts ssl d c status, P s.key s.session) → r.2.2.Stores P := by
  have hsame : ∃ com, c = { c with com } := ⟨c.com, rfl⟩
  unfold store_session_if_needed at h
  split at h
  next htickets =>
    split at h
    next cx hcx =>
      split at h
      next hfull =>
        split at h
        next =>
          split at h
          next hresumable =>
            split at h
            next hok =>
              rw [Option.map_eq_some_iff] at h
              obtain ⟨q, hq, rfl⟩ := h
              refine ⟨hsame, fun P hP hputs => ?_⟩
              refine ptr_cache.set_stored hP ?_ hq
              refine hputs _ (mem_puts.mpr ⟨cx, hcx, ⟨?_, ?_, hresumable, hok⟩, rfl⟩)
              · simpa using htickets
              · simpa using hfull
            next =>
              cases h
              exact ⟨hsame, fun _ hP _ => hP⟩
          next =>
            cases h
            exact ⟨hsame, fun _ hP _ => hP⟩
        next =>
          cases h
          exact ⟨hsame, fun _ hP _ => hP⟩
      next =>
        cases h
        exact ⟨⟨_, rfl⟩, fun _ hP _ => hP⟩
    next =>
      cases h
      exact ⟨hsame, fun _ hP _ => hP⟩
  next =>
    cases h
    exact ⟨hsame, fun _ hP _ => hP⟩

/-- A session that `puts` tells of leaves the status as it was. -/
theorem store_keeps_status {ssl : SSL} {d : connected} {c : client} {cache : session_cache_t}
    {r : Bool × client × session_cache_t} (h : store_session_if_needed ssl d c cache = some r)
    (hfull : d.reused = false) : r.2.1 = c := by
  unfold store_session_if_needed at h
  rw [hfull] at h
  simp only [Bool.not_false, if_true] at h
  repeat' split at h
  all_goals first
    | (cases h; rfl)
    | (rw [Option.map_eq_some_iff] at h
       obtain ⟨q, -, rfl⟩ := h
       rfl)

theorem Vouched.mono {st st' : state} {limit limit' : Nat} {key : List UInt8}
    {session : SSL_SESSION} (h : Vouched st limit key session)
    (hstored : ∀ s ∈ st.stored, s ∈ st'.stored) (hlimit : limit ≤ limit') :
    Vouched st' limit' key session := by
  obtain ⟨s, hs, hkey, hsession, hown, hlt, hstatus⟩ := h
  exact ⟨s, hstored s hs, hkey, hsession, hown, Nat.lt_of_lt_of_le hlt hlimit, hstatus⟩

/-- The end of a handshake that stores no session but one of a verified connection. -/
theorem Trusted.ended {st : state} (h : Trusted st) {i : Nat} {ssl : SSL} {d : connected}
    (hssl : (st.clients i).sslcom_ssl = some ssl) (com : baseSSLCom) {com' : baseSSLCom}
    {cache : session_cache_t} {status : BitVec 32}
    (hcache : ∀ P, st.session_cache.Stores P →
      (∀ s ∈ puts ssl d { st.clients i with com } status, P s.key s.session) → cache.Stores P)
    (hstatus : puts ssl d { st.clients i with com } status ≠ [] →
      status = verify_status_t.VRF_OK.val) :
    Trusted (st.ended i ({ st.clients i with com := com' }, cache)
      (puts ssl d { st.clients i with com } status)
      (reuses ssl d { st.clients i with com })) := by
  obtain ⟨hid, hsession⟩ := h.loaded i ssl hssl
  have hold : ∀ s ∈ st.stored, s ∈ puts ssl d { st.clients i with com } status ++ st.stored :=
    fun s hs => List.mem_append_right _ hs
  refine ⟨?_, ?_, ?_⟩
  · refine hcache _ (fun k b hb => (h.cache k b hb).mono hold (Nat.le_refl _)) fun s hs => ?_
    refine ⟨s, List.mem_append_left _ hs, rfl, rfl, ?_⟩
    have hok := hstatus (List.ne_nil_of_mem hs)
    obtain ⟨cx, -, -, rfl⟩ := mem_puts.mp hs
    exact ⟨rfl, hid, hok⟩
  · intro j ssl' hj
    by_cases hji : j = i
    · subst hji
      simp only [state.ended, state.put, Function.update_self] at hj ⊢
      obtain ⟨hid', hsession'⟩ := h.loaded j ssl' hj
      refine ⟨hid', fun session hs => ?_⟩
      obtain ⟨cx, hcx, hv⟩ := hsession' session hs
      exact ⟨cx, hcx, hv.mono hold (Nat.le_refl _)⟩
    · simp only [state.ended, state.put, Function.update_of_ne hji] at hj ⊢
      obtain ⟨hid', hsession'⟩ := h.loaded j ssl' hj
      refine ⟨hid', fun session hs => ?_⟩
      obtain ⟨cx, hcx, hv⟩ := hsession' session hs
      exact ⟨cx, hcx, hv.mono hold (Nat.le_refl _)⟩
  · intro r hr
    rcases List.mem_append.mp hr with hr | hr
    · obtain ⟨cx, session, hcx, hs, rfl⟩ := mem_reuses hr
      obtain ⟨cx', hcx', hv⟩ := hsession session hs
      have hsame : cx' = cx := by
        rw [hcx] at hcx'
        exact (Option.some.inj hcx').symm
      subst hsame
      exact hv.mono hold (Nat.le_refl _)
    · exact (h.reused r hr).mono hold (Nat.le_refl _)

/-- `check_cert` leaves the status as it was when it is not to check the name, or the name is
right. -/
theorem check_cert_passes {remote validated : Bool} (h : remote = true → validated = true)
    (com : baseSSLCom) : check_cert remote validated com = com := by
  unfold check_cert
  cases remote with
  | false => rfl
  | true => simp [h rfl]

theorem Trusted.upgrade {st : state} (h : Trusted st) {i : Nat} {ssl : SSL} {d : connected}
    {remote validated : Bool} {r : client × session_cache_t}
    (hssl : (st.clients i).sslcom_ssl = some ssl)
    (hr : ends_upgrade ssl d remote validated (st.clients i) st.session_cache = some r)
    (hnamed : puts ssl d (st.clients i) (st.clients i).com.verify_status_ ≠ [] →
      remote = true → validated = true) :
    Trusted (st.ended i r (puts ssl d (st.clients i) r.1.com.verify_status_)
      (reuses ssl d (st.clients i))) := by
  unfold ends_upgrade at hr
  rw [Option.map_eq_some_iff] at hr
  obtain ⟨q, hq, rfl⟩ := hr
  obtain ⟨⟨com, hcom⟩, hcache⟩ := store_spec hq
    (check_cert remote validated q.2.1.com).verify_status_
  have hstatus : puts ssl d (st.clients i) (check_cert remote validated q.2.1.com).verify_status_ ≠ [] →
      (check_cert remote validated q.2.1.com).verify_status_ = verify_status_t.VRF_OK.val := by
    intro hne
    obtain ⟨s, hs⟩ := List.exists_mem_of_ne_nil _ hne
    obtain ⟨cx, hcx, hcond, rfl⟩ := mem_puts.mp hs
    have hnow : puts ssl d (st.clients i) (st.clients i).com.verify_status_ ≠ [] :=
      List.ne_nil_of_mem (mem_puts.mpr ⟨cx, hcx, hcond, rfl⟩)
    rw [check_cert_passes (hnamed hnow), store_keeps_status hq hcond.2.1]
    exact hcond.2.2.2
  rw [hcom] at hcache hstatus ⊢
  exact h.ended hssl (st.clients i).com hcache hstatus

theorem Trusted.handshake {st : state} (h : Trusted st) {i : Nat} {ssl : SSL} {d : connected}
    {com : baseSSLCom} {r : Bool × client × session_cache_t}
    (hssl : (st.clients i).sslcom_ssl = some ssl)
    (hr : store_session_if_needed ssl d { st.clients i with com } st.session_cache = some r) :
    Trusted (st.ended i r.2
      (puts ssl d { st.clients i with com } r.2.1.com.verify_status_)
      (reuses ssl d { st.clients i with com })) := by
  obtain ⟨⟨com', hcom⟩, hcache⟩ := store_spec hr r.2.1.com.verify_status_
  have hstatus : puts ssl d { st.clients i with com } r.2.1.com.verify_status_ ≠ [] →
      r.2.1.com.verify_status_ = verify_status_t.VRF_OK.val := by
    intro hne
    obtain ⟨s, hs⟩ := List.exists_mem_of_ne_nil _ hne
    obtain ⟨cx, hcx, hcond, rfl⟩ := mem_puts.mp hs
    rw [store_keeps_status hr hcond.2.1]
    exact hcond.2.2.2
  obtain ⟨ret, c, cache⟩ := r
  simp only at hcom hcache hstatus ⊢
  subst hcom
  exact h.ended hssl com hcache hstatus

/-- A client changes in what does not decide which session it uses. -/
theorem Trusted.put_com {st : state} (h : Trusted st) (i : Nat) (com : baseSSLCom)
    (fac : SSLFactory) :
    Trusted { st.put i { st.clients i with com } with fac := fac } where
  cache := h.cache
  loaded := by
    intro j ssl hj
    by_cases hji : j = i
    · subst hji
      simp only [state.put, Function.update_self] at hj ⊢
      exact h.loaded j ssl hj
    · simp only [state.put, Function.update_of_ne hji] at hj ⊢
      exact h.loaded j ssl hj
  reused := h.reused

theorem Trusted.hello {st : state} (h : Trusted st) {i : Nat} {sni : List UInt8}
    (hnone : (st.clients i).sslcom_ssl.isNone = true) :
    Trusted (st.put i { st.clients i with sslcom_sni := sni }) where
  cache := h.cache
  loaded := by
    intro j ssl hj
    by_cases hji : j = i
    · subst hji
      simp only [state.put, Function.update_self] at hj
      rw [hj] at hnone
      cases hnone
    · simp only [state.put, Function.update_of_ne hji] at hj ⊢
      exact h.loaded j ssl hj
  reused := h.reused

/-- A session that is loaded comes from the cache. -/
theorem Trusted.init {st : state} (h : Trusted st) {i : Nat} {r : client × session_cache_t}
    (hr : init_client st.made (st.clients i) st.session_cache = some r) :
    Trusted { st.put i r.1 with session_cache := r.2, made := st.made + 1 } := by
  unfold init_client at hr
  rw [Option.map_eq_some_iff] at hr
  obtain ⟨q, hq, rfl⟩ := hr
  have hload : q.2.Stores (Vouched st st.made) ∧ ∀ session, q.1 = some session →
      ∃ cx, (st.clients i).owner_cx = some cx ∧
        Vouched st st.made (load_key (st.clients i) cx) session := by
    have hnothing : st.session_cache.Stores (Vouched st st.made) ∧
        ∀ session, (none : Option SSL_SESSION) = some session →
          ∃ cx, (st.clients i).owner_cx = some cx ∧
            Vouched st st.made (load_key (st.clients i) cx) session :=
      ⟨h.cache, fun session hs => by cases hs⟩
    unfold load_session_if_needed at hq
    split at hq
    · split at hq
      next cx hcx =>
        obtain ⟨hcache, hval⟩ := ptr_cache.get_stored h.cache hq
        exact ⟨hcache, fun session hs => ⟨cx, hcx, hval session hs⟩⟩
      next =>
        cases hq
        exact hnothing
    · cases hq
      exact hnothing
  obtain ⟨hcache, hsession⟩ := hload
  have hsame : ∀ s ∈ st.stored, s ∈ st.stored := fun _ hs => hs
  refine ⟨?_, ?_, ?_⟩
  · intro k b hb
    exact (hcache k b hb).mono hsame (Nat.le_succ _)
  · intro j ssl hj
    by_cases hji : j = i
    · subst hji
      simp only [state.put, Function.update_self, Option.some.injEq] at hj ⊢
      subst hj
      exact ⟨Nat.lt_succ_self _, fun session hs => hsession session hs⟩
    · simp only [state.put, Function.update_of_ne hji] at hj ⊢
      obtain ⟨hid, hs⟩ := h.loaded j ssl hj
      exact ⟨Nat.lt_succ_of_lt hid, hs⟩
  · exact h.reused

theorem trusted_step (lib : openssl) {st st' : state} {a : action} (h : Trusted st)
    (ha : NamedFirst st a) (hs : step lib st a = some st') : Trusted st' := by
  cases a with
  | hello i sni =>
    simp only [step] at hs
    split at hs
    next hnone =>
      cases hs
      exact h.hello hnone
    next => cases hs
  | init_client i =>
    simp only [step, Option.map_eq_some_iff] at hs
    obtain ⟨r, hr, rfl⟩ := hs
    exact h.init hr
  | callback i e =>
    simp only [step] at hs
    split at hs
    next =>
      rw [Option.map_eq_some_iff] at hs
      obtain ⟨c, -, rfl⟩ := hs
      exact h.put_com i c.com c.fac
    next => cases hs
  | upgrade_client_socket i d remote validated =>
    simp only [step] at hs
    split at hs
    next ssl hssl =>
      split at hs
      next =>
        rw [Option.map_eq_some_iff] at hs
        obtain ⟨r, hr, rfl⟩ := hs
        exact h.upgrade hssl hr (ha ssl hssl)
      next => cases hs
    next => cases hs
  | handshake i d remote validated =>
    simp only [step] at hs
    split at hs
    next ssl hssl =>
      split at hs
      next =>
        rw [Option.map_eq_some_iff] at hs
        obtain ⟨r, hr, rfl⟩ := hs
        unfold ends_handshake at hr
        rw [Option.map_eq_some_iff] at hr
        obtain ⟨q, hq, rfl⟩ := hr
        exact h.handshake hssl hq
      next => cases hs
    next => cases hs
  | new_session_callback i d =>
    simp only [step] at hs
    split at hs
    next ssl hssl =>
      split at hs
      next hmode => exact absurd rfl hmode
      next => cases hs
    next => cases hs

theorem trusted_start (fac : SSLFactory) (max_size : Nat) (clients : Nat → setup) :
    Trusted (start fac max_size clients) := by
  refine ⟨?_, ?_, ?_⟩
  · intro k b hb
    cases hb
  · intro i ssl hssl
    cases hssl
  · intro r hr
    cases hr

theorem trusted_earned {st : state} (h : Trusted st) : Earned st :=
  ⟨h.reused, fun _ _ => rfl⟩

/-- In each run in which no `upgrade_client_socket` stores a session of a wrong host, a connection
is verified by a session only when an earlier one earned it. -/
theorem trust_is_earned (lib : openssl) (fac : SSLFactory) (max_size : Nat)
    (clients : Nat → setup) (actions : List action)
    (h : Meets (step lib) NamedFirst (start fac max_size clients) actions) :
    Always (step lib) Earned (start fac max_size clients) actions := by
  have hall : Always (step lib) Trusted (start fac max_size clients) actions :=
    always_of_meets (fun _ _ _ ht ha hs => trusted_step lib ht ha hs)
      (trusted_start fac max_size clients) h
  exact hall.mono fun _ ht => trusted_earned ht

/-- Two clients of one server. The first has a full handshake, and the second resumes its session.
`validated` tells whether the certificate has the name that was asked for. -/
def resumption (validated : Bool) : List action :=
  [.init_client 0,
    .callback 0 (.vrfy 1 X509_V_OK { depth := 1, xcert := some issuer_cert, sig_nid := 668 }),
    .callback 0 (.vrfy 1 X509_V_OK { depth := 0, xcert := some revoked_cert, sig_nid := 668 }),
    .callback 0 (.status_resp (serves_crl crl_with_7) 0 { forged with basic_verify := 1 }),
    .upgrade_client_socket 0 { reused := false, n := 0, resumable := true } true validated,
    .init_client 1,
    .upgrade_client_socket 1 { reused := true, n := 0, resumable := true } true validated]

/-- The clients of `www:443`. -/
def of_www : Nat → setup := fun _ =>
  { opt := {}, owner_cx := some { host := [119, 119, 119], port := [52, 52, 51] },
    no_tickets := false }

theorem a_good_session_is_resumed :
    ∃ st, exec (step openssl_accepts) (start (.reset_caches 300 100) 50 of_www)
      (resumption true) = some st ∧ st.reused.length = 1 ∧ Earned st := by
  refine ⟨_, rfl, by decide, ?_⟩
  refine always_exec (trust_is_earned openssl_accepts (.reset_caches 300 100) 50 of_www
    (resumption true) (meets_of_forall fun a ha st => ?_)) rfl
  simp only [resumption, List.mem_cons, List.not_mem_nil, or_false] at ha
  rcases ha with rfl | rfl | rfl | rfl | rfl | rfl | rfl
  all_goals first
    | trivial
    | exact fun _ _ _ _ => rfl

/-- The second client is verified by a session of a host with a wrong name. -/
theorem a_wrong_host_is_trusted :
    ¬ ∀ (lib : openssl) (fac : SSLFactory) (max_size : Nat) (clients : Nat → setup)
      (actions : List action),
      Always (step lib) Earned (start fac max_size clients) actions := by
  intro hall
  have hend := always_exec (hall openssl_accepts (.reset_caches 300 100) 50 of_www
    (resumption false)) rfl
  obtain ⟨s, hs, -, -, -, -, hstatus⟩ := hend.stored _ List.mem_cons_self
  rcases List.mem_cons.mp hs with rfl | hs
  · revert hstatus
    decide
  · cases hs

end socle.sessions
