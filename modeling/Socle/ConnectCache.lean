-- The sockets of UDP connections, which UDPComs share when they connect with
-- the same key (UDPCom::connect, UDPCom::shutdown and ConnectionsCache of
-- udpcom.cpp).
import Socle.Lib.Run
import Socle.UdpSessions

namespace socle.udp.connections

open lib.run

/-! ## The cache -/

/-- A socket and its counter. -/
abbrev fd_counter_type := Int × Int

abbrev map_type := String → Option fd_counter_type

/-- The cache, which all `UDPCom`s share, the `my_key` of each, and the sockets that are open. -/
structure Coms where
  cache : map_type := fun _ => none
  my_key : Nat → Option String := fun _ => none
  opened : List Int := []

/-- `gen_cache_key` from the addresses. -/
def gen_cache_key (nonlocal_src : Option (String × UInt16)) (host port : String) : Option String :=
  nonlocal_src.map fun src => src.1 ++ ":" ++ toString src.2.toNat ++ "-" ++ host ++ ":" ++ port

/-- A result of `getaddrinfo`, and what the calls for it give: the new socket, or nothing when
`socket_create` throws, and whether it could be made transparent, be named and be connected. -/
structure attempt where
  created : Option Int
  transparent : Bool := true
  named : Bool := true
  connected : Bool := true

namespace Coms

def kill_socket (fd : Int) (w : Coms) : Coms :=
  { w with opened := w.opened.filter (· ≠ fd) }

/-- The socket of the key, if there is one, is used once more. -/
def use_cached_connection (com : Nat) (cache_key : String) (w : Coms) : Option (Int × Coms) :=
  match w.cache cache_key with
  | some (cached_fd, counter) =>
    some (cached_fd, { w with
      cache := Function.update w.cache cache_key (some (cached_fd, counter + 1))
      my_key := Function.update w.my_key com (some cache_key) })
  | none => none

/-- `connect`, over the results of `getaddrinfo`. -/
def connect (com : Nat) (nonlocal_src : Option (String × UInt16)) (l3_proto : Nat)
    (host port : String) : List attempt → Coms → Option Int × Coms
  | [], w => (none, w)
  | rp :: rest, w =>
    let cache_key := gen_cache_key nonlocal_src host port
    match cache_key.bind fun key => w.use_cached_connection com key with
    | some (sfd, w) => (some sfd, w)
    | none =>
      match rp.created with
      | none => connect com nonlocal_src l3_proto host port rest w
      | some sfd =>
        if nonlocal_src.isSome && !(rp.transparent && rp.named) then
          -- closed again, and the next one is tried
          connect com nonlocal_src l3_proto host port rest w
        else if l3_proto ≠ AF_INET6 && !rp.connected then
          connect com nonlocal_src l3_proto host port rest w
        else
          let connect_cache_key_cur := cache_key.getD ""
          (some sfd, {
            cache := Function.update w.cache connect_cache_key_cur (some (sfd, 1))
            my_key := Function.update w.my_key com (some connect_cache_key_cur)
            opened := sfd :: w.opened })

/-- `kill_and_deref_from_connnect`, with the number of entries that it removed. -/
def kill_and_deref_from_connnect (key : String) (w : Coms) : Nat × Coms :=
  match w.cache key with
  | some (sock, counter) =>
    if counter ≤ 1 then
      (1, { w.kill_socket sock with cache := Function.update w.cache key none })
    else (0, { w with cache := Function.update w.cache key (some (sock, counter - 1)) })
  | none => (0, w)

/-- `shutdown` of a real socket. `resolved` is what `gen_cache_key` makes of its addresses. There is
no key in an empty cache. -/
def shutdown (com : Nat) (fd : Int) (resolved : Option String) (w : Coms) : Coms :=
  let key := (w.my_key com).or resolved
  let (killed_from_cache, w) :=
    match key with
    | some key => w.kill_and_deref_from_connnect key
    | none => (0, w)
  if killed_from_cache = 0 then w.kill_socket fd else w

end Coms

/-! ## Runs -/

/-- A `UDPCom` uses a socket that it got for the key. -/
structure holder where
  com : Nat
  fd : Int
  key : Option String
deriving DecidableEq

structure Pool where
  coms : Coms := {}
  holders : List holder := []

/-- The `UDPCom`s that use the socket. -/
def Pool.users (fd : Int) (p : Pool) : List Nat :=
  ((p.holders.filter (·.fd = fd)).map holder.com).dedup

inductive operation
  | connect (com : Nat) (nonlocal_src : Option (String × UInt16)) (l3_proto : Nat)
    (host port : String) (gai_result : List attempt)
  | shutdown (com : Nat) (fd : Int) (resolved : Option String)

/-- A new socket has a descriptor that is not open. A `UDPCom` shuts down a socket that it uses. A
counter is an `int`, and a socket has no more users than it can count. -/
def step (p : Pool) : operation → Option Pool
  | .connect com nonlocal_src l3_proto host port gai_result =>
    if (∃ rp ∈ gai_result, ∃ fd ∈ rp.created, fd ≤ 0 ∨ fd ∈ p.coms.opened) ∨
        ∃ key ∈ gen_cache_key nonlocal_src host port, ∃ entry ∈ p.coms.cache key,
          2 ^ 31 - 1 ≤ entry.2 then none
    else
      match p.coms.connect com nonlocal_src l3_proto host port gai_result with
      | (none, w) => some { p with coms := w }
      | (some fd, w) =>
        some {
          coms := w
          holders := ⟨com, fd, gen_cache_key nonlocal_src host port⟩ :: p.holders }
  | .shutdown com fd resolved =>
    if com ∈ p.users fd then
      some {
        coms := p.coms.shutdown com fd resolved
        holders := p.holders.filter fun h => ¬ (h.com = com ∧ h.fd = fd) }
    else none

/-! ## The law -/

/-- A counter is the number of users, a socket is open while somebody uses it, and sockets are
shared by those that connected with the same key. -/
structure Counted (p : Pool) : Prop where
  counters : ∀ key fd counter, p.coms.cache key = some (fd, counter) →
    counter = (p.users fd).length
  closing : ∀ fd, fd ∈ p.coms.opened ↔ p.users fd ≠ []
  sharing : ∀ h ∈ p.holders, ∀ h' ∈ p.holders, h.fd = h'.fd → h.com ≠ h'.com →
    ∃ key, h.key = some key ∧ h'.key = some key

/-- A `UDPCom` does not connect again with the key of a socket that it uses. A socket is shut down
whose entry has the last key of the `UDPCom` and no further user, or that has no entry, when there
is none with this key. -/
def Private (p : Pool) : operation → Prop
  | .connect com nonlocal_src _ host port gai_result => gai_result ≠ [] →
    ∀ key ∈ gen_cache_key nonlocal_src host port, ∀ entry ∈ p.coms.cache key, com ∉ p.users entry.1
  | .shutdown com fd resolved => ∀ key ∈ (p.coms.my_key com).or resolved,
    match p.coms.cache key with
    | some (sock, counter) => sock = fd ∧ counter ≤ 1
    | none => ∀ key' counter, p.coms.cache key' ≠ some (fd, counter)

/-! ## One operation -/

theorem gen_cache_key_ne {nonlocal_src : Option (String × UInt16)} {host port key : String}
    (h : gen_cache_key nonlocal_src host port = some key) : key ≠ "" := by
  unfold gen_cache_key at h
  rw [Option.map_eq_some_iff] at h
  obtain ⟨src, -, rfl⟩ := h
  intro hnil
  have hlen := congrArg String.length hnil
  simp only [String.length_append] at hlen
  have hcolon : ":".length = 1 := by decide
  have hempty : "".length = 0 := by decide
  omega

namespace Coms

/-- `connect` fails and changes nothing, shares the socket of its key, or has a new socket. -/
def Connected (com : Nat) (gen : Option String) (gai_result : List attempt) (w : Coms)
    (res : Option Int × Coms) : Prop :=
  ((gai_result ≠ [] → ∀ key ∈ gen, w.cache key = none) ∧ res = (none, w)) ∨
    (gai_result ≠ [] ∧ ∃ key fd counter, gen = some key ∧ w.cache key = some (fd, counter) ∧
      res = (some fd, { w with
        cache := Function.update w.cache key (some (fd, counter + 1))
        my_key := Function.update w.my_key com (some key) })) ∨
    (∀ key ∈ gen, w.cache key = none) ∧ ∃ rp ∈ gai_result, ∃ fd ∈ rp.created,
      res = (some fd, {
        cache := Function.update w.cache (gen.getD "") (some (fd, 1))
        my_key := Function.update w.my_key com (some (gen.getD ""))
        opened := fd :: w.opened })

theorem Connected.more {com : Nat} {gen : Option String} {rest : List attempt} {w : Coms}
    {res : Option Int × Coms} (h : Connected com gen rest w res)
    (hmiss : ∀ key ∈ gen, w.cache key = none) (rp : attempt) :
    Connected com gen (rp :: rest) w res := by
  rcases h with ⟨-, hnone⟩ | ⟨-, hshared⟩ | ⟨-, rp', hrp', hnew⟩
  · exact Or.inl ⟨fun _ => hmiss, hnone⟩
  · exact Or.inr (Or.inl ⟨List.cons_ne_nil _ _, hshared⟩)
  · exact Or.inr (Or.inr ⟨hmiss, rp', List.mem_cons_of_mem _ hrp', hnew⟩)

theorem connect_connected (com : Nat) (nonlocal_src : Option (String × UInt16)) (l3_proto : Nat)
    (host port : String) (gai_result : List attempt) (w : Coms) :
    Connected com (gen_cache_key nonlocal_src host port) gai_result w
      (w.connect com nonlocal_src l3_proto host port gai_result) := by
  induction gai_result with
  | nil => exact Or.inl ⟨fun hne => absurd rfl hne, rfl⟩
  | cons rp rest ih =>
    rw [connect]
    simp only
    split
    next sfd w' hcached =>
      -- the key has a socket
      obtain ⟨key, hkey, huse⟩ := Option.bind_eq_some_iff.mp hcached
      unfold use_cached_connection at huse
      split at huse
      next sfd counter hentry =>
        cases huse
        exact Or.inr (Or.inl ⟨List.cons_ne_nil _ _, key, sfd, counter, hkey, hentry, rfl⟩)
      next => cases huse
    next hcached =>
      have hmiss : ∀ key ∈ gen_cache_key nonlocal_src host port, w.cache key = none := by
        intro key hkey
        rw [Option.mem_def.mp hkey, Option.bind_some] at hcached
        unfold use_cached_connection at hcached
        split at hcached
        next => cases hcached
        next hnone => exact hnone
      cases hcreated : rp.created with
      | none => exact ih.more hmiss rp
      | some sfd =>
        simp only
        split
        · exact ih.more hmiss rp
        split
        · exact ih.more hmiss rp
        · exact Or.inr (Or.inr ⟨hmiss, rp, List.mem_cons_self, sfd, hcreated, rfl⟩)

end Coms

/-! ## Users -/

section
variable {p : Pool} {fd : Int} {com : Nat}

theorem mem_users : com ∈ p.users fd ↔ ∃ h ∈ p.holders, h.com = com ∧ h.fd = fd := by
  simp only [Pool.users, List.mem_dedup, List.mem_map, List.mem_filter, decide_eq_true_eq]
  exact exists_congr fun h => ⟨fun hh => ⟨hh.1.1, hh.2, hh.1.2⟩, fun hh => ⟨⟨hh.1, hh.2.2⟩, hh.2.1⟩⟩

theorem users_eq_nil : p.users fd = [] ↔ ∀ h ∈ p.holders, h.fd ≠ fd := by
  rw [List.eq_nil_iff_forall_not_mem]
  simp only [mem_users, not_exists, not_and]
  constructor
  · exact fun hnone h hh hfd => hnone h.com h hh rfl hfd
  · exact fun hnone com h hh _ hfd => hnone h hh hfd

/-- A use of a socket, by one that did not use it. -/
theorem users_cons_self {p' : Pool} {key : Option String}
    (hh : p'.holders = ⟨com, fd, key⟩ :: p.holders) (hnew : com ∉ p.users fd) :
    p'.users fd = com :: p.users fd := by
  unfold Pool.users at hnew ⊢
  rw [hh, List.filter_cons_of_pos (by simp), List.map_cons, List.dedup_cons_of_notMem]
  exact fun hmem => hnew (List.mem_dedup.mpr hmem)

theorem users_cons_of_ne {p' : Pool} {key : Option String}
    (hh : p'.holders = ⟨com, fd, key⟩ :: p.holders) {fd' : Int} (hne : fd' ≠ fd) :
    p'.users fd' = p.users fd' := by
  unfold Pool.users
  rw [hh, List.filter_cons_of_neg (by simpa using hne.symm)]

/-- A second use of a socket by the same `UDPCom`. -/
theorem users_cons_again {p' : Pool} {key : Option String}
    (hh : p'.holders = ⟨com, fd, key⟩ :: p.holders) (hold : com ∈ p.users fd) :
    p'.users fd = p.users fd := by
  unfold Pool.users at hold ⊢
  rw [hh, List.filter_cons_of_pos (by simp), List.map_cons, List.dedup_cons_of_mem]
  exact List.mem_dedup.mp hold

theorem users_drop_of_ne {p' : Pool}
    (hh : p'.holders = p.holders.filter fun h => ¬ (h.com = com ∧ h.fd = fd)) {fd' : Int}
    (hne : fd' ≠ fd) : p'.users fd' = p.users fd' := by
  unfold Pool.users
  rw [hh, List.filter_filter]
  congr 2
  apply List.filter_congr
  intro h _
  by_cases hfd : h.fd = fd'
  · simp [hfd, hne]
  · simp [hfd]

end

/-! ## Each run -/

/-- The invariant. A socket has one entry, whose key its users connected with, and a socket that lost
its entry has one user. -/
structure Sound (p : Pool) : Prop extends Counted p where
  positive : ∀ key fd counter, p.coms.cache key = some (fd, counter) → 1 ≤ counter
  unique : ∀ key key' fd counter counter', p.coms.cache key = some (fd, counter) →
    p.coms.cache key' = some (fd, counter') → key = key'
  keyed : ∀ key fd counter, p.coms.cache key = some (fd, counter) →
    ∀ h ∈ p.holders, h.fd = fd → h.key.getD "" = key
  plain : ∀ fd counter, p.coms.cache "" = some (fd, counter) → counter = 1
  alone : ∀ h ∈ p.holders, ∀ h' ∈ p.holders, h.fd = h'.fd →
    (∀ key counter, p.coms.cache key ≠ some (h.fd, counter)) → h.com = h'.com
  natural : ∀ h ∈ p.holders, 0 < h.fd
  keys : ∀ h ∈ p.holders, p.coms.my_key h.com ≠ none

theorem sound_start : Sound {} where
  counters := fun _ _ _ h => nomatch h
  closing := fun _ => iff_of_false List.not_mem_nil fun h => h rfl
  sharing := fun _ h => nomatch h
  positive := fun _ _ _ h => nomatch h
  unique := fun _ _ _ _ _ h => nomatch h
  keyed := fun _ _ _ h => nomatch h
  plain := fun _ _ h => nomatch h
  alone := fun _ h => nomatch h
  natural := fun _ h => nomatch h
  keys := fun _ h => nomatch h

namespace Sound

variable {p : Pool}

/-- A socket with an entry is used. -/
theorem used (h : Sound p) {key : String} {fd counter : Int}
    (hentry : p.coms.cache key = some (fd, counter)) : p.users fd ≠ [] := by
  intro hnil
  have hcounter := h.counters key fd counter hentry
  have hpos := h.positive key fd counter hentry
  rw [hnil, List.length_nil] at hcounter
  omega

/-- One that connected has a key then, and the others keep theirs. -/
theorem keys_cons (h : Sound p) {p' : Pool} {com : Nat} {fd : Int} {key : Option String}
    {my_key : String} (hmy_key : p'.coms.my_key = Function.update p.coms.my_key com (some my_key))
    (hholders : p'.holders = ⟨com, fd, key⟩ :: p.holders) :
    ∀ a ∈ p'.holders, p'.coms.my_key a.com ≠ none := by
  rw [hholders, hmy_key]
  intro a ha
  by_cases hcom : a.com = com
  · rw [hcom, Function.update_self]
    exact Option.some_ne_none _
  · rw [Function.update_of_ne hcom]
    rcases List.mem_cons.mp ha with rfl | ha
    · exact absurd rfl hcom
    · exact h.keys a ha

/-- Users of a socket without an entry used it before, when the new socket has an entry. -/
theorem lost_cons {p' : Pool} {com : Nat} {fd : Int} {key : Option String} {k : String} {n : Int}
    (hentry : p'.coms.cache k = some (fd, n))
    (hholders : p'.holders = ⟨com, fd, key⟩ :: p.holders) {a b : holder} (ha : a ∈ p'.holders)
    (hb : b ∈ p'.holders) (hfd : a.fd = b.fd)
    (hlost : ∀ k n, p'.coms.cache k ≠ some (a.fd, n)) : a ∈ p.holders ∧ b ∈ p.holders := by
  have hcached : a.fd ≠ fd := fun heq => hlost k n (heq ▸ hentry)
  rw [hholders, List.mem_cons] at ha hb
  rcases ha with rfl | ha
  · exact absurd rfl hcached
  · rcases hb with rfl | hb
    · exact absurd hfd hcached
    · exact ⟨ha, hb⟩

/-- A socket is shared with those who have its key. -/
theorem share (h : Sound p) {p' : Pool} {com : Nat} {key : String} {fd counter : Int}
    (hkey : key ≠ "") (hentry : p.coms.cache key = some (fd, counter)) (hnew : com ∉ p.users fd)
    (hcache : p'.coms.cache = Function.update p.coms.cache key (some (fd, counter + 1)))
    (hmy_key : p'.coms.my_key = Function.update p.coms.my_key com (some key))
    (hopened : p'.coms.opened = p.coms.opened)
    (hholders : p'.holders = ⟨com, fd, some key⟩ :: p.holders) : Sound p' := by
  have hself : p'.coms.cache key = some (fd, counter + 1) := by rw [hcache, Function.update_self]
  have hother : ∀ k ≠ key, p'.coms.cache k = p.coms.cache k := by
    intro k hk
    rw [hcache, Function.update_of_ne hk]
  -- the entries have the sockets that they had
  have hold : ∀ {k fd' n}, p'.coms.cache k = some (fd', n) →
      ∃ n', p.coms.cache k = some (fd', n') := by
    intro k fd' n hk
    by_cases hkk : k = key
    · subst hkk
      cases hself.symm.trans hk
      exact ⟨counter, hentry⟩
    · exact ⟨n, (hother k hkk).symm.trans hk⟩
  have hkeep : ∀ {k fd' n}, p.coms.cache k = some (fd', n) →
      ∃ n', p'.coms.cache k = some (fd', n') := by
    intro k fd' n hk
    by_cases hkk : k = key
    · subst hkk
      cases hentry.symm.trans hk
      exact ⟨counter + 1, hself⟩
    · exact ⟨n, (hother k hkk).trans hk⟩
  have hpartner : ∀ b ∈ p.holders, b.fd = fd → b.key = some key := by
    intro b hb hfd
    have hget := h.keyed key fd counter hentry b hb hfd
    cases hcase : b.key with
    | none =>
      rw [hcase, Option.getD_none] at hget
      exact absurd hget.symm hkey
    | some k =>
      rw [hcase, Option.getD_some] at hget
      rw [hget]
  exact {
    counters := by
      intro k fd' n hk
      by_cases hkk : k = key
      · subst hkk
        cases hself.symm.trans hk
        rw [users_cons_self hholders hnew, List.length_cons, h.counters k fd counter hentry]
        rfl
      · rw [hother k hkk] at hk
        have hne : fd' ≠ fd := fun heq => hkk (h.unique k key fd n counter (heq ▸ hk) hentry)
        rw [users_cons_of_ne hholders hne]
        exact h.counters k fd' n hk
    closing := by
      intro fd'
      rw [hopened]
      by_cases hfd : fd' = fd
      · subst hfd
        rw [users_cons_self hholders hnew]
        exact iff_of_true ((h.closing fd').mpr (h.used hentry)) (List.cons_ne_nil _ _)
      · rw [users_cons_of_ne hholders hfd]
        exact h.closing fd'
    sharing := by
      rw [hholders]
      intro a ha b hb hfd hcom
      rcases List.mem_cons.mp ha with rfl | ha <;> rcases List.mem_cons.mp hb with rfl | hb
      · exact absurd rfl hcom
      · exact ⟨key, rfl, hpartner b hb hfd.symm⟩
      · exact ⟨key, hpartner a ha hfd, rfl⟩
      · exact h.sharing a ha b hb hfd hcom
    positive := by
      intro k fd' n hk
      by_cases hkk : k = key
      · subst hkk
        cases hself.symm.trans hk
        have hpos := h.positive k fd counter hentry
        omega
      · exact h.positive k fd' n ((hother k hkk).symm.trans hk)
    unique := by
      intro k k' fd' n n' hk hk'
      obtain ⟨m, hm⟩ := hold hk
      obtain ⟨m', hm'⟩ := hold hk'
      exact h.unique k k' fd' m m' hm hm'
    keyed := by
      rw [hholders]
      intro k fd' n hk a ha hfd
      obtain ⟨m, hm⟩ := hold hk
      rcases List.mem_cons.mp ha with rfl | ha
      · cases hfd
        exact (h.unique k key fd m counter hm hentry).symm
      · exact h.keyed k fd' m hm a ha hfd
    plain := by
      intro fd' n hk
      exact h.plain fd' n ((hother "" hkey.symm).symm.trans hk)
    alone := by
      intro a ha b hb hfd hlost
      obtain ⟨ha, hb⟩ := lost_cons hself hholders ha hb hfd hlost
      refine h.alone a ha b hb hfd fun k n hk => ?_
      obtain ⟨m, hm⟩ := hkeep hk
      exact hlost k m hm
    natural := by
      rw [hholders]
      intro a ha
      rcases List.mem_cons.mp ha with rfl | ha
      · obtain ⟨u, hu⟩ := List.exists_mem_of_ne_nil _ (h.used hentry)
        obtain ⟨b, hb, -, hfd⟩ := mem_users.mp hu
        exact hfd ▸ h.natural b hb
      · exact h.natural a ha
    keys := h.keys_cons hmy_key hholders }

/-- A new socket. Its entry may take the place of one, of a socket that is not shared. -/
theorem create (h : Sound p) {p' : Pool} {com : Nat} {gen : Option String} {fd : Int}
    (hmiss : ∀ key ∈ gen, p.coms.cache key = none) (hpos : 0 < fd) (hfresh : fd ∉ p.coms.opened)
    (hcache : p'.coms.cache = Function.update p.coms.cache (gen.getD "") (some (fd, 1)))
    (hmy_key : p'.coms.my_key = Function.update p.coms.my_key com (some (gen.getD "")))
    (hopened : p'.coms.opened = fd :: p.coms.opened)
    (hholders : p'.holders = ⟨com, fd, gen⟩ :: p.holders) : Sound p' := by
  have hself : p'.coms.cache (gen.getD "") = some (fd, 1) := by rw [hcache, Function.update_self]
  have hother : ∀ k ≠ gen.getD "", p'.coms.cache k = p.coms.cache k := by
    intro k hk
    rw [hcache, Function.update_of_ne hk]
  have hunused : p.users fd = [] := by
    by_contra hused
    exact hfresh ((h.closing fd).mpr hused)
  have hnobody : ∀ a ∈ p.holders, a.fd ≠ fd := users_eq_nil.mp hunused
  have hnew : com ∉ p.users fd := by rw [hunused]; exact List.not_mem_nil
  have hnone : ∀ {k fd' n}, p.coms.cache k = some (fd', n) → fd' ≠ fd :=
    fun hk heq => h.used (heq ▸ hk) hunused
  exact {
    counters := by
      intro k fd' n hk
      by_cases hkk : k = gen.getD ""
      · rw [hkk] at hk
        cases hself.symm.trans hk
        rw [users_cons_self hholders hnew, hunused]
        rfl
      · rw [hother k hkk] at hk
        rw [users_cons_of_ne hholders (hnone hk)]
        exact h.counters k fd' n hk
    closing := by
      intro fd'
      rw [hopened]
      by_cases hfd : fd' = fd
      · subst hfd
        rw [users_cons_self hholders hnew]
        exact iff_of_true List.mem_cons_self (List.cons_ne_nil _ _)
      · rw [users_cons_of_ne hholders hfd, List.mem_cons, ← h.closing fd']
        exact or_iff_right hfd
    sharing := by
      rw [hholders]
      intro a ha b hb hfd hcom
      rcases List.mem_cons.mp ha with rfl | ha <;> rcases List.mem_cons.mp hb with rfl | hb
      · exact absurd rfl hcom
      · exact absurd hfd.symm (hnobody b hb)
      · exact absurd hfd (hnobody a ha)
      · exact h.sharing a ha b hb hfd hcom
    positive := by
      intro k fd' n hk
      by_cases hkk : k = gen.getD ""
      · rw [hkk] at hk
        cases hself.symm.trans hk
        exact le_rfl
      · exact h.positive k fd' n ((hother k hkk).symm.trans hk)
    unique := by
      intro k k' fd' n n' hk hk'
      by_cases hkk : k = gen.getD "" <;> by_cases hkk' : k' = gen.getD ""
      · rw [hkk, hkk']
      · rw [hkk] at hk
        cases hself.symm.trans hk
        exact absurd rfl (hnone ((hother k' hkk').symm.trans hk'))
      · rw [hkk'] at hk'
        cases hself.symm.trans hk'
        exact absurd rfl (hnone ((hother k hkk).symm.trans hk))
      · exact h.unique k k' fd' n n' ((hother k hkk).symm.trans hk) ((hother k' hkk').symm.trans hk')
    keyed := by
      rw [hholders]
      intro k fd' n hk a ha hfd
      by_cases hkk : k = gen.getD ""
      · rw [hkk] at hk ⊢
        cases hself.symm.trans hk
        rcases List.mem_cons.mp ha with rfl | ha
        · rfl
        · exact absurd hfd (hnobody a ha)
      · rw [hother k hkk] at hk
        rcases List.mem_cons.mp ha with rfl | ha
        · exact absurd hfd.symm (hnone hk)
        · exact h.keyed k fd' n hk a ha hfd
    plain := by
      intro fd' n hk
      by_cases hkk : "" = gen.getD ""
      · rw [hkk] at hk
        cases hself.symm.trans hk
        rfl
      · exact h.plain fd' n ((hother "" hkk).symm.trans hk)
    alone := by
      intro a ha b hb hfd hlost
      obtain ⟨hold, hold'⟩ := lost_cons hself hholders ha hb hfd hlost
      by_cases hentry : ∃ k n, p.coms.cache k = some (a.fd, n)
      · -- the entry that was lost is the one without a key
        obtain ⟨k, n, hk⟩ := hentry
        have hkk : k = gen.getD "" := by
          by_contra hkk
          exact hlost k n ((hother k hkk).trans hk)
        cases gen with
        | some key =>
          rw [hkk, Option.getD_some, hmiss key rfl] at hk
          cases hk
        | none =>
          rw [hkk, Option.getD_none] at hk
          have hone := h.counters "" a.fd n hk
          rw [h.plain a.fd n hk] at hone
          obtain ⟨u, hu⟩ := List.length_eq_one_iff.mp (by omega : (p.users a.fd).length = 1)
          have hua : a.com ∈ p.users a.fd := mem_users.mpr ⟨a, hold, rfl, rfl⟩
          have hub : b.com ∈ p.users a.fd := mem_users.mpr ⟨b, hold', rfl, hfd.symm⟩
          rw [hu, List.mem_singleton] at hua hub
          rw [hua, hub]
      · push Not at hentry
        exact h.alone a hold b hold' hfd hentry
    natural := by
      rw [hholders]
      intro a ha
      rcases List.mem_cons.mp ha with rfl | ha
      · exact hpos
      · exact h.natural a ha
    keys := h.keys_cons hmy_key hholders }

/-- The only user of a socket shuts it down, and its entry is gone. -/
theorem drop (h : Sound p) {p' : Pool} {com : Nat} {fd : Int}
    (hcache : ∀ k fd' n, p'.coms.cache k = some (fd', n) ↔
      p.coms.cache k = some (fd', n) ∧ fd' ≠ fd)
    (hmy_key : p'.coms.my_key = p.coms.my_key)
    (hopened : p'.coms.opened = p.coms.opened.filter (· ≠ fd))
    (hholders : p'.holders = p.holders.filter fun h => ¬ (h.com = com ∧ h.fd = fd))
    (honly : ∀ u ∈ p.users fd, u = com) : Sound p' := by
  have hmem : ∀ a ∈ p'.holders, a ∈ p.holders ∧ a.fd ≠ fd := by
    intro a ha
    rw [hholders, List.mem_filter, decide_eq_true_eq] at ha
    refine ⟨ha.1, fun hfd => ha.2 ⟨honly a.com ?_, hfd⟩⟩
    exact mem_users.mpr ⟨a, ha.1, rfl, hfd⟩
  exact {
    counters := by
      intro k fd' n hk
      obtain ⟨hk, hne⟩ := (hcache k fd' n).mp hk
      rw [users_drop_of_ne hholders hne]
      exact h.counters k fd' n hk
    closing := by
      intro fd'
      rw [hopened, List.mem_filter, decide_eq_true_eq]
      by_cases hfd : fd' = fd
      · refine iff_of_false (fun hopen => hopen.2 hfd) ?_
        rw [hfd, not_not, users_eq_nil]
        exact fun a ha => (hmem a ha).2
      · rw [users_drop_of_ne hholders hfd, ← h.closing fd']
        exact and_iff_left hfd
    sharing := fun a ha b hb => h.sharing a (hmem a ha).1 b (hmem b hb).1
    positive := fun k fd' n hk => h.positive k fd' n ((hcache k fd' n).mp hk).1
    unique := by
      intro k k' fd' n n' hk hk'
      exact h.unique k k' fd' n n' ((hcache k fd' n).mp hk).1 ((hcache k' fd' n').mp hk').1
    keyed := fun k fd' n hk a ha => h.keyed k fd' n ((hcache k fd' n).mp hk).1 a (hmem a ha).1
    plain := fun fd' n hk => h.plain fd' n ((hcache "" fd' n).mp hk).1
    alone := by
      intro a ha b hb hfd hlost
      refine h.alone a (hmem a ha).1 b (hmem b hb).1 hfd fun k n hk => ?_
      exact hlost k n ((hcache k a.fd n).mpr ⟨hk, (hmem a ha).2⟩)
    natural := fun a ha => h.natural a (hmem a ha).1
    keys := by
      rw [hmy_key]
      exact fun a ha => h.keys a (hmem a ha).1 }

/-- One that connects may not use the socket of its key already. -/
theorem step_connect (h : Sound p) {p' : Pool} {com : Nat}
    {nonlocal_src : Option (String × UInt16)} {l3_proto : Nat} {host port : String}
    {gai_result : List attempt}
    (hs : step p (.connect com nonlocal_src l3_proto host port gai_result) = some p') :
    (Private p (.connect com nonlocal_src l3_proto host port gai_result) → Sound p') ∧
      (Counted p' → Private p (.connect com nonlocal_src l3_proto host port gai_result)) := by
  simp only [step] at hs
  split at hs
  · cases hs
  next hguard =>
  push Not at hguard
  rcases Coms.connect_connected com nonlocal_src l3_proto host port gai_result p.coms with
    ⟨hmiss, hres⟩ | ⟨hne, key, fd, counter, hgen, hentry, hres⟩ | ⟨hmiss, rp, hrp, fd, hfd, hres⟩
  · rw [hres] at hs
    cases hs
    refine ⟨fun _ => h, fun _ hne key hkey entry hentry => ?_⟩
    rw [hmiss hne key hkey] at hentry
    cases hentry
  · rw [hres] at hs
    cases hs
    constructor
    · intro hc
      exact h.share (gen_cache_key_ne hgen) hentry (hc hne key hgen _ hentry) rfl rfl rfl
        (by rw [hgen])
    · intro hlaw _ key' hkey' entry hentry' hagain
      rw [hgen, Option.mem_some_iff] at hkey'
      subst hkey'
      cases hentry.symm.trans hentry'
      have hcounter := hlaw.counters key fd (counter + 1) (Function.update_self ..)
      rw [users_cons_again rfl hagain, ← h.counters key fd counter hentry] at hcounter
      omega
  · rw [hres] at hs
    cases hs
    obtain ⟨hpos, hfresh⟩ := hguard.1 rp hrp fd hfd
    refine ⟨fun _ => h.create hmiss hpos hfresh rfl rfl rfl rfl, fun _ _ key hkey entry hentry => ?_⟩
    rw [hmiss key hkey] at hentry
    cases hentry

/-- One that shuts a socket down must find its entry, with itself as the only user. -/
theorem step_shutdown (h : Sound p) {p' : Pool} {com : Nat} {fd : Int} {resolved : Option String}
    (hs : step p (.shutdown com fd resolved) = some p') :
    (Private p (.shutdown com fd resolved) → Sound p') ∧
      (Counted p' → Private p (.shutdown com fd resolved)) := by
  simp only [step] at hs
  split at hs
  next huser =>
    obtain ⟨a, ha, hcom, hfd⟩ := mem_users.mp huser
    have hpos : 0 < fd := hfd ▸ h.natural a ha
    obtain ⟨key, hkey⟩ := Option.ne_none_iff_exists'.mp (hcom ▸ h.keys a ha)
    have hor : (p.coms.my_key com).or resolved = some key := by rw [hkey]; rfl
    have hcond : ∀ {c : Prop}, (Private p (.shutdown com fd resolved) ↔ c) →
        (c → Sound p') ∧ (Counted p' → c) →
        (Private p (.shutdown com fd resolved) → Sound p') ∧
          (Counted p' → Private p (.shutdown com fd resolved)) :=
      fun hiff hboth => ⟨fun hc => hboth.1 (hiff.mp hc), fun hlaw => hiff.mpr (hboth.2 hlaw)⟩
    have hclosed : ∀ {w : Coms}, fd ∈ (w.kill_socket fd).opened → False := by
      intro w hopen
      simp [Coms.kill_socket] at hopen
    cases hentry : p.coms.cache key with
    | none =>
      -- the key is not in the cache any more
      have hcoms : p.coms.shutdown com fd resolved = p.coms.kill_socket fd := by
        simp only [Coms.shutdown, hor, Coms.kill_and_deref_from_connnect, hentry, if_true]
      rw [hcoms] at hs
      cases hs
      apply hcond (c := ∀ key' counter, p.coms.cache key' ≠ some (fd, counter))
      · simp only [Private, hor, Option.mem_some_iff, forall_eq', hentry]
      constructor
      · intro hlost
        refine h.drop (fun k fd' n => ?_) rfl rfl rfl fun u hu => ?_
        · exact ⟨fun hk => ⟨hk, fun heq => hlost k n (heq ▸ hk)⟩, And.left⟩
        · obtain ⟨b, hb, rfl, hbfd⟩ := mem_users.mp hu
          rw [← hcom]
          exact h.alone b hb a ha (hbfd.trans hfd.symm) fun k n => hbfd ▸ hlost k n
      · intro hlaw key' counter hk
        have hcounter := hlaw.counters key' fd counter hk
        have hnobody : Pool.users fd _ = [] := not_not.mp fun hused =>
          hclosed ((hlaw.closing fd).mpr hused)
        rw [hnobody, List.length_nil] at hcounter
        have hpositive := h.positive key' fd counter hk
        omega
    | some entry =>
      obtain ⟨sock, counter⟩ := entry
      have hcounter := h.counters key sock counter hentry
      have hpositive := h.positive key sock counter hentry
      apply hcond (c := sock = fd ∧ counter ≤ 1)
      · simp only [Private, hor, Option.mem_some_iff, forall_eq', hentry]
      by_cases hone : counter ≤ 1
      · have hcoms : p.coms.shutdown com fd resolved =
            { p.coms.kill_socket sock with cache := Function.update p.coms.cache key none } := by
          simp only [Coms.shutdown, hor, Coms.kill_and_deref_from_connnect, hentry, if_pos hone,
            one_ne_zero, if_false]
        rw [hcoms] at hs
        cases hs
        constructor
        · rintro ⟨rfl, -⟩
          refine h.drop (fun k fd' n => ?_) rfl rfl rfl fun u hu => ?_
          · by_cases hkk : k = key
            · subst hkk
              refine iff_of_false ?_ ?_
              · simp
              · rintro ⟨hk, hne⟩
                cases hentry.symm.trans hk
                exact hne rfl
            · simp only [Function.update_of_ne hkk]
              refine ⟨fun hk => ⟨hk, fun heq => hkk ?_⟩, And.left⟩
              exact h.unique k key sock n counter (heq ▸ hk) hentry
          · have hlen : (p.users sock).length = 1 := by omega
            obtain ⟨v, hv⟩ := List.length_eq_one_iff.mp hlen
            rw [hv, List.mem_singleton] at hu huser
            rw [hu, huser]
        · intro hlaw
          refine ⟨?_, hone⟩
          by_contra hne
          have hnobody : Pool.users sock _ = [] := not_not.mp fun hused => by
            have hopen := (hlaw.closing sock).mpr hused
            simp [Coms.kill_socket] at hopen
          rw [users_drop_of_ne rfl hne] at hnobody
          exact h.used hentry hnobody
      · have hcoms : p.coms.shutdown com fd resolved = Coms.kill_socket fd { p.coms with
            cache := Function.update p.coms.cache key (some (sock, counter - 1)) } := by
          simp only [Coms.shutdown, hor, Coms.kill_and_deref_from_connnect, hentry, if_neg hone,
            if_true]
        rw [hcoms] at hs
        cases hs
        refine ⟨fun hc => absurd hc.2 hone, fun hlaw => ?_⟩
        exfalso
        by_cases hsame : sock = fd
        · subst hsame
          have hnobody : Pool.users sock _ = [] := not_not.mp fun hused =>
            hclosed ((hlaw.closing sock).mpr hused)
          have hless := hlaw.counters key sock (counter - 1) (Function.update_self ..)
          rw [hnobody, List.length_nil] at hless
          omega
        · have hless := hlaw.counters key sock (counter - 1) (Function.update_self ..)
          rw [users_drop_of_ne rfl hsame] at hless
          omega
  next => cases hs

end Sound

/-- Sockets are counted, shared and closed as they should be in each run that connects nobody twice
with a key and shuts down no socket that is shared or whose entry was taken by another, and in no
other run. -/
theorem sockets_are_counted (ops : List operation) :
    Always step Counted {} ops ↔ Meets step Private {} ops := by
  have hboth : ∀ p a p', Sound p → step p a = some p' →
      (Private p a → Sound p') ∧ (Counted p' → Private p a) := by
    intro p a p' h hs
    cases a with
    | connect com nonlocal_src l3_proto host port gai_result => exact h.step_connect hs
    | shutdown com fd resolved => exact h.step_shutdown hs
  refine always_iff_meets (P := Sound) (fun p h => h.toCounted) ?_ ?_ sound_start ops
  · exact fun p a p' h hc hs => (hboth p a p' h hs).1 hc
  · exact fun p a p' h hc hs hlaw => hc ((hboth p a p' h hs).2 hlaw)

/-- Two connections from the same source to the same resolver share a socket. The first of them that
is shut down closes it. -/
theorem a_shared_socket_is_closed :
    ¬ ∀ ops : List operation, Always step Counted {} ops := by
  intro hall
  have hlaw := always_exec (hall
    [.connect 1 (some ("10.0.0.1", 5353)) AF_INET "8.8.8.8" "53" [{ created := some 7 }],
      .connect 2 (some ("10.0.0.1", 5353)) AF_INET "8.8.8.8" "53" [{ created := some 8 }],
      .shutdown 1 7 none]) rfl
  exact absurd ((hlaw.closing 7).mpr (by decide)) (by decide)

end socle.udp.connections
