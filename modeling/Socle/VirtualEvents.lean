-- How the workers of a receiver learn of early datagrams (run_poll, run_poll_socket and
-- run_poll_socket_null_handler of baseproxy.cpp, over in_virt_set of udpcom.cpp). The set is one for
-- all workers. Each of them takes a socket out of it that it has handled, or has no handler for.
import Socle.UdpReadable

namespace socle.udp.events

open lib.run

/-! ## Model -/

/-- The workers, with the pool of datagrams that they share. A session is owned by the worker whose
poller has a handler for it. `todo` is what is left of the copy that a worker made of the set, and
`ran` the socket that it handled and did not erase yet. -/
structure Workers where
  com : DatagramCom := {}
  owner : UInt32 → Option Nat := fun _ => none
  embryons : UInt32 → embryon := fun _ => {}
  todo : Nat → List UInt32 := fun _ => []
  ran : Nat → Option UInt32 := fun _ => none

/-- A read of a session by its owner: how many bytes are asked for, whether with `MSG_PEEK`, and whether
the real socket is in the read set. -/
structure reading where
  n : Nat
  peek : Bool := false
  real : Bool

inductive action
  /-- `add_first_datagrams`. -/
  | datagram (o : origin) (red : Option (List UInt8)) (socket_left : Option Int)
  /-- A worker popped the session, and its proxies handle their sockets. -/
  | hand_over (worker : Nat) (key : UInt32) (reads : List reading)
  /-- The loop of `run_poll` comes to the set: it is copied. -/
  | copy (worker : Nat)
  /-- `run_poll_socket`, up to its last line. -/
  | run (worker : Nat) (key : UInt32) (reads : List reading)
  /-- `real_set.erase(cur_socket)`. -/
  | erase (worker : Nat)
  /-- The owner handles the session for another event. -/
  | handle (worker : Nat) (key : UInt32) (reads : List reading)
  /-- `shutdown`. `kept` is that the record is to be reused. -/
  | shutdown (key : UInt32) (kept : Bool)

def reads (key : UInt32) : List reading → embryon → DatagramCom →
    Option (embryon × DatagramCom)
  | [], e, com => some (e, com)
  | i :: rest, e, com =>
    (e.read key.toInt32 i.n i.peek i.real com).bind fun r => reads key rest r.2.1 r.2.2

namespace Workers

variable (s : Workers)

/-- `handle_sockets_once`, as far as the session is concerned. -/
def handled (key : UInt32) (sizes : List reading) : Option Workers :=
  (reads key sizes (s.embryons key) s.com).map fun r =>
    { s with embryons := Function.update s.embryons key r.1, com := r.2 }

def erase_virt (key : UInt32) : Workers :=
  { s with com := { s.com with in_virt_set := DatagramCom.erase key s.com.in_virt_set } }

/-- The start of `run_poll_socket`, for a socket of the copy. -/
def take (worker : Nat) (key : UInt32) : Workers :=
  { s with
    todo := Function.update s.todo worker ((s.todo worker).filter (· ≠ key))
    ran := Function.update s.ran worker (some key) }

def own (worker : Nat) (key : UInt32) : Workers :=
  { s with
    owner := Function.update s.owner key (some worker)
    embryons := Function.update s.embryons key { id := key } }

end Workers

/-- A step. Where a read is undefined, there is none. -/
def step (dist : generator) (s : Workers) : action → Option Workers
  | .datagram o red socket_left =>
    if ∃ buff ∈ red, buff.length > buff_sz then none
    else some { s with com := s.com.add_first_datagrams dist o red socket_left }
  | .hand_over worker key sizes =>
    if (s.com.datagrams_received key).isSome ∧ s.owner key = none then
      (s.own worker key).handled key sizes
    else none
  | .copy worker =>
    if s.todo worker = [] ∧ s.ran worker = none then
      some { s with todo := Function.update s.todo worker s.com.in_virt_set }
    else none
  | .run worker key sizes =>
    if key ∈ s.todo worker ∧ s.ran worker = none then
      if s.owner key = some worker then (s.take worker key).handled key sizes
      -- no handler: an orphaned virtual socket, it is supposed
      else some ((s.take worker key).erase_virt key)
    else none
  | .erase worker =>
    match s.ran worker with
    | some key => some { s.erase_virt key with ran := Function.update s.ran worker none }
    | none => none
  | .handle worker key sizes => if s.owner key = some worker then s.handled key sizes else none
  | .shutdown key kept =>
    if (s.owner key).isSome then
      let s := s.erase_virt key
      some { s with
        owner := Function.update s.owner key none
        com := { s.com with datagrams_received :=
          if kept then s.com.datagrams_received
          else Function.update s.com.datagrams_received key none } }
    else none

/-! ## The law -/

/-- Early data waits in the session. -/
def waiting (com : DatagramCom) (key : UInt32) : Prop :=
  ∃ record, com.datagrams_received key = some record ∧ record.rx_queue.queue_bytes > 0

/-- A session with an owner, whose data waits, is in the set, or in what the owner copied from it. -/
def Noticed (s : Workers) : Prop :=
  ∀ key worker, s.owner key = some worker → waiting s.com key →
    key ∈ s.com.in_virt_set ∨ key ∈ s.todo worker

/-- What has to be so for a socket that is erased: no data waits, or the owner has it in its copy. -/
def Spare (s : Workers) (key : UInt32) : Prop :=
  ∀ worker, s.owner key = some worker → waiting s.com key → key ∈ s.todo worker

/-- No socket is erased whose data waits, unless its owner copied it, and a worker that does not read
a session finds no data there, or leaves it in the set. -/
def Kept (s : Workers) : action → Prop
  | .hand_over worker key [] =>
    waiting s.com key → key ∈ s.com.in_virt_set ∨ key ∈ s.todo worker
  | .run worker key sizes =>
    if s.owner key = some worker then
      sizes = [] → waiting s.com key → key ∈ s.com.in_virt_set
    else Spare s key
  | .erase worker => ∀ key, s.ran worker = some key → Spare s key
  | _ => True

/-! ## Reads -/

/-- Only one session is touched. -/
structure Touched (key : UInt32) (com com' : DatagramCom) : Prop where
  same : ∀ k ≠ key, com'.datagrams_received k = com.datagrams_received k
  set : ∀ k ≠ key, (k ∈ com'.in_virt_set ↔ k ∈ com.in_virt_set)
  known : (com'.datagrams_received key).isSome = (com.datagrams_received key).isSome

section
variable {key k : UInt32} {com com₁ com' : DatagramCom}

theorem Touched.rfl : Touched key com com :=
  ⟨fun _ _ => Eq.refl _, fun _ _ => Iff.refl _, Eq.refl _⟩

theorem Touched.trans (h : Touched key com com₁) (h' : Touched key com₁ com') :
    Touched key com com' := by
  exact ⟨fun k hk => (h'.same k hk).trans (h.same k hk),
    fun k hk => (h'.set k hk).trans (h.set k hk), h'.known.trans h.known⟩

theorem Touched.waiting (h : Touched key com com') (hk : k ≠ key) :
    waiting com' k ↔ waiting com k := by
  unfold events.waiting
  rw [h.same k hk]

theorem touched_erase : Touched key com
    { com with in_virt_set := DatagramCom.erase key com.in_virt_set } :=
  ⟨fun _ _ => Eq.refl _, fun _ hk => DatagramCom.mem_erase.trans (and_iff_left hk),
    Eq.refl _⟩

/-- A session whose real socket is read has no data waiting. -/
theorem recv_empty {record : Record} {n : Nat} {peek : Bool} {fd : Int} {d : Datagram tagged}
    (h : record.read_from_pool n peek = some (.recv fd, d)) : record.rx_queue.queue_bytes = 0 := by
  unfold Datagram.read_from_pool at h
  split at h
  · next hzero => exact hzero
  · next hzero => exact hzero
  · split at h <;> cases h

theorem mem_virt_set_other {peek : Bool} {copied : Nat} {record : Record} {left : rx_queue tagged}
    {set : List UInt32} (hk : k ≠ key) :
    k ∈ DatagramCom.virt_set key peek copied record left set ↔ k ∈ set := by
  unfold DatagramCom.virt_set
  dsimp only
  split <;> split <;> simp [DatagramCom.mem_erase, hk]

/-- A read touches its session only, and leaves it in the set while data waits. -/
theorem pool_touched {n : Nat} {peek : Bool} {r : read_result tagged}
    (h : com.read_from_pool key n peek = some (r, com')) :
    Touched key com com' ∧ (waiting com' key → key ∈ com'.in_virt_set) := by
  unfold DatagramCom.read_from_pool at h
  split at h
  · next hnone =>
    cases h
    refine ⟨Touched.rfl, ?_⟩
    rintro ⟨record, hrecord, -⟩
    rw [hnone] at hrecord
    cases hrecord
  · next record hrecord =>
    split at h
    · cases h
    · next hread =>
      cases h
      refine ⟨Touched.rfl, ?_⟩
      rintro ⟨record', hrecord', hwaits⟩
      rw [hrecord] at hrecord'
      cases hrecord'
      rw [recv_empty hread] at hwaits
      cases hwaits
    · next bytes d hread =>
      cases h
      refine ⟨⟨fun k hk => ?_, fun k hk => mem_virt_set_other hk, ?_⟩, ?_⟩
      · simp [DatagramCom.put, Function.update_of_ne hk]
      · simp [DatagramCom.put, hrecord]
      · rintro ⟨record', hrecord', hwaits⟩
        simp only [DatagramCom.put, Function.update_self, Option.some.injEq] at hrecord'
        subst hrecord'
        unfold DatagramCom.virt_set
        simp only [if_pos hwaits]
        exact List.mem_insert_self

/-- Data that waits in a virtual socket makes it readable. -/
theorem readable_of_waiting {real : Bool} (hneg : key.toInt32 < 0) (h : waiting com key) :
    com.in_readset real key.toInt32 = true := by
  obtain ⟨record, hrecord, hwaits⟩ := h
  simp [DatagramCom.in_readset, hneg, hrecord, hwaits]

theorem read_touched {e e' : embryon} {n : Nat} {peek real : Bool}
    {r : Option (read_result tagged)} (hneg : key.toInt32 < 0) (hid : e.id = key)
    (h : e.read key.toInt32 n peek real com = some (r, e', com')) :
    e'.id = key ∧ Touched key com com' ∧ (waiting com' key → key ∈ com'.in_virt_set) := by
  unfold embryon.read at h
  split at h
  · rw [hid] at h
    split at h
    · cases h
    · next r₁ com₁ hpool =>
      obtain ⟨htouched, hset⟩ := pool_touched hpool
      split at h
      · cases h
        exact ⟨hid, htouched, hset⟩
      · next hnot =>
        cases h
        refine ⟨rfl, htouched.trans touched_erase, fun hwaits => ?_⟩
        have hwaits₁ : waiting com₁ key := hwaits
        exact absurd (readable_of_waiting hneg hwaits₁) hnot
  · rw [UInt32.toUInt32_toInt32] at h
    split at h
    · cases h
    · next r₁ com₁ hpool =>
      cases h
      exact ⟨hid, pool_touched hpool⟩

theorem reads_touched {sizes : List reading} {e e' : embryon} (hneg : key.toInt32 < 0)
    (hid : e.id = key) (h : reads key sizes e com = some (e', com')) :
    e'.id = key ∧ Touched key com com' ∧
      (sizes ≠ [] → waiting com' key → key ∈ com'.in_virt_set) := by
  induction sizes generalizing e com with
  | nil =>
    cases h
    exact ⟨hid, Touched.rfl, fun hne => absurd rfl hne⟩
  | cons first rest ih =>
    obtain ⟨⟨r, e₁, com₁⟩, hread, hrest⟩ := Option.bind_eq_some_iff.mp h
    obtain ⟨hid₁, htouched₁, hset₁⟩ := read_touched hneg hid hread
    obtain ⟨hid', htouched', hset'⟩ := ih hid₁ hrest
    refine ⟨hid', htouched₁.trans htouched', fun _ => ?_⟩
    cases rest with
    | nil =>
      cases hrest
      exact hset₁
    | cons second rest => exact hset' (List.cons_ne_nil _ _)

/-- A datagram touches its session only. One that is known is in the set then, unless nothing was
read. -/
theorem datagram_touched (dist : generator) (o : origin) (red : Option (List UInt8))
    (socket_left : Option Int) (com : DatagramCom) :
    let key := o.info.create_session_key dist true
    let com' := com.add_first_datagrams dist o red socket_left
    (∀ k ≠ key, com'.datagrams_received k = com.datagrams_received k ∧
        (k ∈ com'.in_virt_set ↔ k ∈ com.in_virt_set)) ∧
      (com'.datagrams_received key).isSome = true ∧
      (com.datagrams_received key = none ∨ key ∈ com'.in_virt_set ∨ com' = com) := by
  intro key com'
  have hput : ∀ k ≠ key, ∀ record, (com.put key record).datagrams_received k =
      com.datagrams_received k := by
    intro k hk record
    simp [DatagramCom.put, Function.update_of_ne hk]
  have hself : ∀ record, ((com.put key record).datagrams_received key).isSome = true := by
    intro record
    simp [DatagramCom.put]
  have hinsert : ∀ k ≠ key, (k ∈ com.in_virt_set.insert key ↔ k ∈ com.in_virt_set) := by
    intro k hk
    simp [hk]
  rcases DatagramCom.add_first_datagrams_cases dist o red socket_left com with
    ⟨record, hrecord, ⟨-, hcom⟩ | ⟨buff, -, hcom⟩⟩ |
    ⟨hnone, ⟨-, hcom⟩ | ⟨buff, -, ⟨-, hcom⟩ | ⟨fd, -, hcom⟩⟩⟩
  · refine ⟨fun k _ => ?_, ?_, .inr (.inr hcom)⟩
    · simp only [com', hcom, and_self]
    · simp only [com', hcom, key, hrecord, Option.isSome_some]
  · simp only [com', hcom]
    exact ⟨fun k hk => ⟨hput k hk _, hinsert k hk⟩, hself _, .inr (.inl List.mem_insert_self)⟩
  · simp only [com', hcom]
    exact ⟨fun k hk => ⟨hput k hk _, Iff.rfl⟩, hself _, .inl hnone⟩
  · simp only [com', hcom]
    exact ⟨fun k hk => ⟨hput k hk _, Iff.rfl⟩, hself _, .inl hnone⟩
  · simp only [com', hcom]
    exact ⟨fun k hk => ⟨hput k hk _, hinsert k hk⟩, hself _, .inl hnone⟩

end

/-! ## Steps -/

/-- The invariant: an owned session has a record, and a virtual descriptor, and its com reads it. -/
structure Inv (s : Workers) : Prop where
  negative : ∀ key record, s.com.datagrams_received key = some record → key.toInt32 < 0
  known : ∀ key worker, s.owner key = some worker → (s.com.datagrams_received key).isSome
  ids : ∀ key worker, s.owner key = some worker → (s.embryons key).id = key

theorem Inv.owned {s : Workers} (h : Inv s) {key : UInt32} {worker : Nat}
    (howner : s.owner key = some worker) : key.toInt32 < 0 := by
  obtain ⟨record, hrecord⟩ := Option.isSome_iff_exists.mp (h.known key worker howner)
  exact h.negative key record hrecord

section
variable {dist : generator} {s s' : Workers} {key k : UInt32} {i worker : Nat}

/-- What handling a session leaves. -/
structure Handled (key : UInt32) (sizes : List reading) (s s' : Workers) : Prop where
  owner : s'.owner = s.owner
  todo : s'.todo = s.todo
  ran : s'.ran = s.ran
  ids : ∀ k, (s'.embryons k).id = (s.embryons k).id
  touched : Touched key s.com s'.com
  set : sizes ≠ [] → waiting s'.com key → key ∈ s'.com.in_virt_set
  unread : sizes = [] → s'.com = s.com

theorem handled_spec {sizes : List reading} (hneg : key.toInt32 < 0)
    (hid : (s.embryons key).id = key) (hs : s.handled key sizes = some s') :
    Handled key sizes s s' := by
  obtain ⟨⟨e, com⟩, hreads, rfl⟩ := Option.map_eq_some_iff.mp hs
  obtain ⟨hid', htouched, hset⟩ := reads_touched hneg hid hreads
  refine ⟨rfl, rfl, rfl, fun k => ?_, htouched, hset, ?_⟩
  · by_cases hk : k = key
    · subst hk
      simp [hid, hid']
    · simp [Function.update_of_ne hk]
  · rintro rfl
    cases hreads
    rfl

theorem Handled.inv {sizes : List reading} (hs : Handled key sizes s s') (h : Inv s) :
    Inv s' := by
  have hsome : ∀ k, (s'.com.datagrams_received k).isSome = (s.com.datagrams_received k).isSome := by
    intro k
    by_cases hk : k = key
    · subst hk
      exact hs.touched.known
    · rw [hs.touched.same k hk]
  refine ⟨fun k record hrecord => ?_, fun k worker howner => ?_, fun k worker howner => ?_⟩
  · have hthere : (s.com.datagrams_received k).isSome := by rw [← hsome, hrecord]; rfl
    obtain ⟨record₀, hrecord₀⟩ := Option.isSome_iff_exists.mp hthere
    exact h.negative k record₀ hrecord₀
  · rw [hs.owner] at howner
    rw [hsome]
    exact h.known k worker howner
  · rw [hs.owner] at howner
    rw [hs.ids]
    exact h.ids k worker howner

/-- The other sessions are noticed as before, and this one when it was read, or was noticed. -/
theorem Handled.noticed {sizes : List reading} (hs : Handled key sizes s s')
    (hother : ∀ k ≠ key, ∀ worker, s.owner k = some worker → waiting s.com k →
      k ∈ s.com.in_virt_set ∨ k ∈ s.todo worker)
    (hself : sizes = [] → ∀ worker, s.owner key = some worker → waiting s.com key →
      key ∈ s.com.in_virt_set ∨ key ∈ s.todo worker) : Noticed s' := by
  intro k worker howner hwaits
  rw [hs.owner] at howner
  rw [hs.todo]
  by_cases hk : k = key
  · subst hk
    by_cases hsizes : sizes = []
    · rw [hs.unread hsizes] at hwaits ⊢
      exact hself hsizes worker howner hwaits
    · exact .inl (hs.set hsizes hwaits)
  · rw [hs.touched.waiting hk] at hwaits
    rw [hs.touched.set k hk]
    exact hother k hk worker howner hwaits

theorem inv_own {record : Record} (h : Inv s)
    (hrecord : s.com.datagrams_received key = some record) : Inv (s.own worker key) := by
  refine ⟨h.negative, fun k w howner => ?_, fun k w howner => ?_⟩
  · by_cases hk : k = key
    · subst hk
      exact hrecord ▸ rfl
    · simp only [Workers.own, Function.update_of_ne hk] at howner
      exact h.known k w howner
  · by_cases hk : k = key
    · subst hk
      simp [Workers.own]
    · simp only [Workers.own, Function.update_of_ne hk] at howner ⊢
      exact h.ids k w howner

theorem hand_over_spec {sizes : List reading} (h : Inv s)
    (hs : step dist s (.hand_over worker key sizes) = some s') :
    s.owner key = none ∧ Inv (s.own worker key) ∧ Handled key sizes (s.own worker key) s' := by
  simp only [step, Option.ite_none_right_eq_some] at hs
  obtain ⟨⟨hsome, howner⟩, hs⟩ := hs
  obtain ⟨record, hrecord⟩ := Option.isSome_iff_exists.mp hsome
  have hown : Inv (s.own worker key) := inv_own h hrecord
  refine ⟨howner, hown, handled_spec (h.negative key record hrecord) ?_ hs⟩
  simp [Workers.own]

theorem handle_spec {sizes : List reading} (h : Inv s)
    (hs : step dist s (.handle worker key sizes) = some s') : Handled key sizes s s' := by
  simp only [step, Option.ite_none_right_eq_some] at hs
  exact handled_spec (h.owned hs.1) (h.ids key worker hs.1) hs.2

theorem run_spec {sizes : List reading} (h : Inv s)
    (hs : step dist s (.run worker key sizes) = some s') :
    (s.owner key = some worker ∧ Handled key sizes (s.take worker key) s') ∨
      (s.owner key ≠ some worker ∧ s' = (s.take worker key).erase_virt key) := by
  simp only [step, Option.ite_none_right_eq_some] at hs
  obtain ⟨-, hs⟩ := hs
  split at hs
  · next howner =>
    exact .inl ⟨howner, handled_spec (h.owned howner) (h.ids key worker howner) hs⟩
  · next howner => exact .inr ⟨howner, (Option.some.inj hs).symm⟩

theorem erase_spec (hs : step dist s (.erase worker) = some s') :
    ∃ key, s.ran worker = some key ∧
      s' = { s.erase_virt key with ran := Function.update s.ran worker none } := by
  simp only [step] at hs
  split at hs
  · next key hkey => exact ⟨key, hkey, (Option.some.inj hs).symm⟩
  · cases hs

theorem inv_datagram {o : origin} {red : Option (List UInt8)} {socket_left : Option Int}
    (h : Inv s) (hs : step dist s (.datagram o red socket_left) = some s') : Inv s' := by
  simp only [step, Option.ite_none_left_eq_some] at hs
  obtain rfl := Option.some.inj hs.2
  obtain ⟨hother, hself, -⟩ := datagram_touched dist o red socket_left s.com
  refine ⟨fun k record hrecord => ?_, fun k w howner => ?_, h.ids⟩
  · by_cases hk : k = o.info.create_session_key dist true
    · exact hk ▸ create_session_key_negative dist o.info
    · exact h.negative k record ((hother k hk).1 ▸ hrecord)
  · by_cases hk : k = o.info.create_session_key dist true
    · exact hk ▸ hself
    · exact (hother k hk).1 ▸ h.known k w howner

theorem inv_shutdown {kept : Bool} (h : Inv s)
    (hs : step dist s (.shutdown key kept) = some s') : Inv s' := by
  simp only [step, Option.ite_none_right_eq_some] at hs
  obtain rfl := Option.some.inj hs.2
  have howned : ∀ {k w}, Function.update s.owner key none k = some w → k ≠ key ∧ s.owner k = some w := by
    intro k w howner
    by_cases hk : k = key
    · subst hk
      simp at howner
    · exact ⟨hk, by simpa [Function.update_of_ne hk] using howner⟩
  refine ⟨fun k record hrecord => ?_, fun k w howner => ?_, fun k w howner => ?_⟩
  · cases kept with
    | true => exact h.negative k record hrecord
    | false =>
      by_cases hk : k = key
      · subst hk
        simp at hrecord
      · simp only [Bool.false_eq_true, if_false, Function.update_of_ne hk] at hrecord
        exact h.negative k record hrecord
  · obtain ⟨hk, hold⟩ := howned howner
    have hknown := h.known k w hold
    cases kept with
    | true => exact hknown
    | false =>
      simp only [Bool.false_eq_true, if_false, Function.update_of_ne hk]
      exact hknown
  · exact h.ids k w (howned howner).2

theorem inv_step {a : action} (h : Inv s) (hs : step dist s a = some s') : Inv s' := by
  cases a with
  | datagram o red socket_left => exact inv_datagram h hs
  | hand_over worker key sizes =>
    obtain ⟨-, hown, hhandled⟩ := hand_over_spec h hs
    exact hhandled.inv hown
  | copy worker =>
    simp only [step, Option.ite_none_right_eq_some] at hs
    obtain rfl := Option.some.inj hs.2
    exact ⟨h.negative, h.known, h.ids⟩
  | run worker key sizes =>
    have htake : Inv (s.take worker key) := ⟨h.negative, h.known, h.ids⟩
    obtain ⟨-, hhandled⟩ | ⟨-, rfl⟩ := run_spec h hs
    · exact hhandled.inv htake
    · exact ⟨h.negative, h.known, h.ids⟩
  | erase worker =>
    obtain ⟨key, -, rfl⟩ := erase_spec hs
    exact ⟨h.negative, h.known, h.ids⟩
  | handle worker key sizes => exact (handle_spec h hs).inv h
  | shutdown key kept => exact inv_shutdown h hs

/-! ## Who is noticed -/

theorem take_todo (k : UInt32) (w : Nat) (hk : k ≠ key) :
    k ∈ (s.take worker key).todo w ↔ k ∈ s.todo w := by
  by_cases hw : w = worker
  · subst hw
    simp [Workers.take, hk]
  · simp [Workers.take, Function.update_of_ne hw]

/-- A socket is erased from the set. -/
theorem noticed_erase (h : Noticed s) (hspare : Spare s key) : Noticed (s.erase_virt key) := by
  intro k w howner hwaits
  by_cases hk : k = key
  · subst hk
    exact .inr (hspare w howner hwaits)
  · rcases h k w howner hwaits with hset | htodo
    · exact .inl (DatagramCom.mem_erase.mpr ⟨hset, hk⟩)
    · exact .inr htodo

theorem noticed_datagram {o : origin} {red : Option (List UInt8)} {socket_left : Option Int}
    (hinv : Inv s) (h : Noticed s) (hs : step dist s (.datagram o red socket_left) = some s') :
    Noticed s' := by
  simp only [step, Option.ite_none_left_eq_some] at hs
  obtain rfl := Option.some.inj hs.2
  obtain ⟨hother, -, hself⟩ := datagram_touched dist o red socket_left s.com
  intro k w howner hwaits
  by_cases hk : k = o.info.create_session_key dist true
  · rcases hself with hnone | hset | hsame
    · have hknown := hinv.known k w howner
      rw [hk, hnone] at hknown
      cases hknown
    · exact .inl (hk ▸ hset)
    · simp only [hsame] at hwaits ⊢
      exact h k w howner hwaits
  · obtain ⟨hrecord, hset⟩ := hother k hk
    simp only [waiting, hrecord] at hwaits
    rw [hset]
    exact h k w howner hwaits

theorem noticed_shutdown {kept : Bool} (h : Noticed s)
    (hs : step dist s (.shutdown key kept) = some s') : Noticed s' := by
  simp only [step, Option.ite_none_right_eq_some] at hs
  obtain rfl := Option.some.inj hs.2
  intro k w howner hwaits
  by_cases hk : k = key
  · subst hk
    simp at howner
  · have howner' : s.owner k = some w := by
      simpa [Function.update_of_ne hk, Workers.erase_virt] using howner
    have hwaits' : waiting s.com k := by
      obtain ⟨record, hrecord, hbytes⟩ := hwaits
      refine ⟨record, ?_, hbytes⟩
      cases kept with
      | true => exact hrecord
      | false => simpa [Function.update_of_ne hk, Workers.erase_virt] using hrecord
    rcases h k w howner' hwaits' with hset | htodo
    · exact .inl (DatagramCom.mem_erase.mpr ⟨hset, hk⟩)
    · exact .inr htodo

theorem noticed_run {sizes : List reading} (hinv : Inv s) (h : Noticed s)
    (hkept : Kept s (.run worker key sizes))
    (hs : step dist s (.run worker key sizes) = some s') : Noticed s' := by
  have hother : ∀ k ≠ key, ∀ w, s.owner k = some w → waiting s.com k →
      k ∈ s.com.in_virt_set ∨ k ∈ (s.take worker key).todo w := by
    intro k hk w howner hwaits
    rw [take_todo k w hk]
    exact h k w howner hwaits
  simp only [Kept] at hkept
  obtain ⟨howner, hhandled⟩ | ⟨howner, rfl⟩ := run_spec hinv hs
  · rw [if_pos howner] at hkept
    exact hhandled.noticed hother fun hsizes w _ hwaits => .inl (hkept hsizes hwaits)
  · rw [if_neg howner] at hkept
    intro k w hw hwaits
    by_cases hk : k = key
    · subst hk
      have hne : w ≠ worker := by
        rintro rfl
        exact howner hw
      have htodo := hkept w hw hwaits
      exact .inr (by simpa [Workers.erase_virt, Workers.take, Function.update_of_ne hne] using htodo)
    · rcases hother k hk w hw hwaits with hset | htodo
      · exact .inl (DatagramCom.mem_erase.mpr ⟨hset, hk⟩)
      · exact .inr htodo

theorem noticed_hand_over {sizes : List reading} (hinv : Inv s) (h : Noticed s)
    (hkept : Kept s (.hand_over worker key sizes))
    (hs : step dist s (.hand_over worker key sizes) = some s') : Noticed s' := by
  obtain ⟨-, -, hhandled⟩ := hand_over_spec hinv hs
  apply hhandled.noticed
  · intro k hk w howner hwaits
    simp only [Workers.own, Function.update_of_ne hk] at howner
    exact h k w howner hwaits
  · rintro rfl w howner hwaits
    simp only [Workers.own, Function.update_self, Option.some.injEq] at howner
    subst howner
    exact hkept hwaits

theorem noticed_step {a : action} (hinv : Inv s) (h : Noticed s) (hkept : Kept s a)
    (hs : step dist s a = some s') : Noticed s' := by
  cases a with
  | datagram o red socket_left => exact noticed_datagram hinv h hs
  | hand_over worker key sizes => exact noticed_hand_over hinv h hkept hs
  | copy worker =>
    simp only [step, Option.ite_none_right_eq_some] at hs
    obtain ⟨⟨htodo, -⟩, hs⟩ := hs
    obtain rfl := Option.some.inj hs
    intro k w howner hwaits
    rcases h k w howner hwaits with hset | hcopied
    · exact .inl hset
    · by_cases hw : w = worker
      · subst hw
        rw [htodo] at hcopied
        cases hcopied
      · exact .inr (by simpa [Function.update_of_ne hw] using hcopied)
  | run worker key sizes => exact noticed_run hinv h hkept hs
  | erase worker =>
    obtain ⟨key, hran, rfl⟩ := erase_spec hs
    exact noticed_erase h (hkept key hran)
  | handle worker key sizes =>
    exact (handle_spec hinv hs).noticed (fun k _ => h k) fun _ => h key
  | shutdown key kept => exact noticed_shutdown h hs

/-- A session whose data waits is erased, and its owner did not copy it. -/
theorem unnoticed_erase (h : ¬ Spare s key) : ¬ Noticed (s.erase_virt key) := by
  simp only [Spare, not_forall] at h
  obtain ⟨w, howner, hwaits, htodo⟩ := h
  intro hnoticed
  rcases hnoticed key w howner hwaits with hset | hcopied
  · exact (DatagramCom.mem_erase.mp hset).2 rfl
  · exact htodo hcopied

theorem unnoticed_run {sizes : List reading} (hinv : Inv s)
    (hkept : ¬ Kept s (.run worker key sizes))
    (hs : step dist s (.run worker key sizes) = some s') : ¬ Noticed s' := by
  simp only [Kept] at hkept
  obtain ⟨howner, hhandled⟩ | ⟨howner, rfl⟩ := run_spec hinv hs
  · rw [if_pos howner] at hkept
    simp only [not_forall] at hkept
    obtain ⟨hsizes, hwaits, hset⟩ := hkept
    intro hnoticed
    have hcom : s'.com = s.com := hhandled.unread hsizes
    have howner' : s'.owner key = some worker := hhandled.owner ▸ howner
    rcases hnoticed key worker howner' (hcom ▸ hwaits) with hset' | hcopied
    · exact hset (hcom ▸ hset')
    · simp [hhandled.todo, Workers.take] at hcopied
  · rw [if_neg howner] at hkept
    apply unnoticed_erase
    intro hspare
    apply hkept
    intro w hw hwaits
    have htodo := hspare w hw hwaits
    have hne : w ≠ worker := by
      rintro rfl
      exact howner hw
    simpa [Workers.take, Function.update_of_ne hne] using htodo

theorem unnoticed_step {a : action} (hinv : Inv s) (hkept : ¬ Kept s a)
    (hs : step dist s a = some s') : ¬ Noticed s' := by
  cases a with
  | hand_over worker key sizes =>
    cases sizes with
    | nil =>
      obtain ⟨-, -, hhandled⟩ := hand_over_spec hinv hs
      simp only [Kept, not_forall] at hkept
      obtain ⟨hwaits, hnot⟩ := hkept
      have hcom : s'.com = s.com := hhandled.unread rfl
      intro hnoticed
      have hkey := hnoticed key worker (by simp [hhandled.owner, Workers.own]) (hcom ▸ hwaits)
      rw [hcom, hhandled.todo] at hkey
      exact hnot hkey
    | cons first rest => exact absurd trivial hkept
  | run worker key sizes => exact unnoticed_run hinv hkept hs
  | erase worker =>
    obtain ⟨key, hran, rfl⟩ := erase_spec hs
    have hspare : ¬ Spare s key := by
      intro hspare
      apply hkept
      intro key' hran'
      rw [hran] at hran'
      cases hran'
      exact hspare
    exact unnoticed_erase hspare
  | _ => exact absurd trivial hkept

end

/-- In each run of a receiver with any number of workers, a session with an owner whose early data
waits is in the set, or in the copy of the set that its owner is going through, if and only if no
worker takes it out of the set too soon: as an orphan, because the handler is with another worker,
behind a read that left data and had put the session back, or behind a datagram that came
meanwhile. -/
theorem waiting_sessions_are_noticed_iff (dist : generator) (as : List action) :
    Always (step dist) Noticed {} as ↔ Meets (step dist) Kept {} as :=
  have hstart : Inv {} ∧ Noticed {} := ⟨⟨nofun, nofun, nofun⟩, nofun⟩
  always_iff_meets (P := fun s => Inv s ∧ Noticed s) (fun _ h => h.2)
    (fun _ _ _ h hkept hs => ⟨inv_step h.1 hs, noticed_step h.1 h.2 hkept hs⟩)
    (fun _ _ _ h hkept hs => unnoticed_step h.1 hkept hs) hstart as

end socle.udp.events
