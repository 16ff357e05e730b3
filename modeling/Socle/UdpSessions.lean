-- The sessions of a UDP receiver (threadedreceiver.cpp, socketinfo.cpp and
-- UDPCom::read of udpcom.cpp): a datagram is queued in the record of its
-- session key, and a session is readable when its key is in in_virt_set. A key
-- and the negative descriptor of a virtual socket are the same 32 bits.
import Socle.UdpQueue

namespace socle.udp

/-! ## Addresses -/

def AF_INET : Nat := 2
def AF_INET6 : Nat := 10

/-- `sockaddr_storage`, as it lies in the memory: behind the port, which has one place in
`sockaddr_in` and `sockaddr_in6`, the four bytes that are `sin_addr` or `sin6_flowinfo`, and then
the sixteen bytes of `sin6_addr`. -/
structure sockaddr_storage where
  ss_family : Nat
  port : UInt16
  word : UInt32 := 0
  words : UInt32 × UInt32 × UInt32 × UInt32 := (0, 0, 0, 0)
deriving DecidableEq, Repr

namespace sockaddr_storage

/-- What the cast to `sockaddr_in` reads. -/
def sin_addr (s : sockaddr_storage) : UInt32 := s.word

/-- What the cast to `sockaddr_in6` reads. -/
def sin6_addr (s : sockaddr_storage) : List UInt32 :=
  [s.words.1, s.words.2.1, s.words.2.2.1, s.words.2.2.2]

end sockaddr_storage

/-- The bytes of a word in the memory of a little-endian machine. -/
def bytes_of (w : UInt32) : List Nat :=
  [w.toNat % 256, w.toNat / 256 % 256, w.toNat / 65536 % 256, w.toNat / 16777216]

def ntohs (p : UInt16) : UInt16 :=
  (p <<< 8) ||| (p >>> 8)

abbrev text := List Char

/-- `inet_ntop` for `AF_INET`. -/
def inet_ntop4 (bytes : List Nat) : text :=
  (bytes.map fun b => Nat.toDigits 10 b).intersperse ['.'] |>.flatten

/-- The longest run of zeros, the first one of several, as its start and its length. -/
def zero_run (i : Nat) (cur best : Option (Nat × Nat)) : List Nat → Option (Nat × Nat)
  | [] => longer cur best
  | 0 :: rest =>
    let cur := match cur with
      | none => (i, 1)
      | some (start, len) => (start, len + 1)
    zero_run (i + 1) (some cur) best rest
  | _ :: rest => zero_run (i + 1) none (longer cur best) rest
where
  longer : Option (Nat × Nat) → Option (Nat × Nat) → Option (Nat × Nat)
    | some c, some b => some (if c.2 > b.2 then c else b)
    | some c, none => some c
    | none, b => b

/-- The words of two bytes, in network order. -/
def words_of : List Nat → List Nat
  | high :: low :: rest => (high * 256 + low) :: words_of rest
  | _ => []

/-- `inet_ntop` for `AF_INET6`. The longest run of at least two zeros is left out, and the last
four bytes of a mapped address are written as those of IPv4. -/
def inet_ntop6 (bytes : List Nat) : text :=
  let words := words_of bytes
  let best := (zero_run 0 none none words).filter fun b => 2 ≤ b.2
  let inside := fun i => best.any fun b => b.1 ≤ i && i < b.1 + b.2
  let four := best == some (0, 6) || best == some (0, 5) && words.getD 5 0 == 0xffff
  let out := (List.range 8).flatMap fun i =>
    if inside i then (if best.any fun b => b.1 = i then [':'] else [])
    else
      let colon := if i = 0 then [] else [':']
      if four && i == 7 then []
      else if four && i == 6 then colon ++ inet_ntop4 (bytes.drop 12)
      else colon ++ Nat.toDigits 16 (words.getD i 0)
  if best.any fun b => b.1 + b.2 = 8 then out ++ [':'] else out

/-- The text in front of a mapped address. -/
def mapped_prefix : text := [':', ':', 'f', 'f', 'f', 'f', ':']

structure AddressInfo where
  ss : sockaddr_storage
  family : Nat
  str_host : text
  port : UInt16

/-- `SockOps::ss_address_unpack`: the family, the host and the port. -/
def ss_address_unpack (ptr : sockaddr_storage) : Nat × text × UInt16 :=
  let (b, val_port) : text × UInt16 :=
    if ptr.ss_family = AF_INET6 then (inet_ntop6 (ptr.sin6_addr.flatMap bytes_of), ptr.port)
    else if ptr.ss_family = AF_INET then (inet_ntop4 (bytes_of ptr.sin_addr), ptr.port)
    else ([], 0)
  if mapped_prefix.isPrefixOf b then (AF_INET, b.drop 7, ntohs val_port)
  else (ptr.ss_family, b, ntohs val_port)

/-- An address whose `ss` was received, behind `unpack`. -/
def AddressInfo.unpack (ss : sockaddr_storage) : AddressInfo :=
  let (family, str_host, port) := ss_address_unpack ss
  { ss, family, str_host, port }

/-! ## Session keys -/

structure SocketInfo where
  src : AddressInfo
  dst : AddressInfo

/-- The two addresses of a datagram, as `process_anc_data` reads them. -/
structure origin where
  src : sockaddr_storage
  dst : sockaddr_storage
deriving DecidableEq, Repr

def origin.info (o : origin) : SocketInfo :=
  { src := .unpack o.src, dst := .unpack o.dst }

/-- The first number that a seeded generator draws from 0 to the largest `int`. How it does that is
left to the library of the compiler. -/
abbrev generator := List UInt32 → Fin (2 ^ 31)

/-- The seeds of `create_session_key4`. -/
def seeds4 (src orig : sockaddr_storage) : List UInt32 :=
  [src.sin_addr, orig.sin_addr, (ntohs src.port).toUInt32, (ntohs orig.port).toUInt32]

/-- The seeds of `create_session_key6`. -/
def seeds6 (src orig : sockaddr_storage) : List UInt32 :=
  (List.zipWith (fun s d => [s, d]) src.sin6_addr orig.sin6_addr).flatten ++
    [(ntohs src.port).toUInt32, (ntohs orig.port).toUInt32]

/-- The seeds of `create_session_key`, which looks at the unpacked family. -/
def SocketInfo.seeds (info : SocketInfo) : List UInt32 :=
  if info.src.family = AF_INET6 then seeds6 info.src.ss info.dst.ss
  else seeds4 info.src.ss info.dst.ss

def SocketInfo.create_session_key (dist : generator) (negative : Bool) (info : SocketInfo) :
    UInt32 :=
  let mirand := UInt32.ofNat (dist info.seeds).val
  if negative then mirand ||| 0x80000000 else mirand &&& 0x7fffffff

/-! ## Records -/

/-- A byte with the addresses of its datagram. -/
abbrev tagged := origin × UInt8

/-- `Datagram`, with its addresses. -/
structure Record extends Datagram tagged where
  src : sockaddr_storage
  dst : sockaddr_storage

def Record.origin (record : Record) : udp.origin :=
  { src := record.src, dst := record.dst }

structure DatagramCom where
  datagrams_received : UInt32 → Option Record := fun _ => none
  in_virt_set : List UInt32 := []

namespace DatagramCom

def put (id : UInt32) (record : Record) (com : DatagramCom) : DatagramCom :=
  { com with datagrams_received := Function.update com.datagrams_received id (some record) }

/-- `add_first_datagrams`. `red` is what was read, or nothing on an error, and `socket_left` the new
socket, or nothing when `create_socket_left` throws. -/
def add_first_datagrams (dist : generator) (o : udp.origin) (red : Option (List UInt8))
    (socket_left : Option Int) (com : DatagramCom) : DatagramCom :=
  let session_key := o.info.create_session_key dist true
  let (new_entry, entry) : Bool × Record :=
    match com.datagrams_received session_key with
    | some entry => (false, entry)
    | none => (true, { src := o.src, dst := o.dst })
  let com := com.put session_key entry
  match red with
  | none => com
  | some buff =>
    let entry := { entry with toDatagram := (entry.enqueue (buff.map fun b => (o, b))).2 }
    if new_entry then
      match socket_left with
      | none => com.put session_key entry
      | some fd =>
        { com.put session_key { entry with socket_left := some fd } with
          in_virt_set := com.in_virt_set.insert session_key }
    else { com.put session_key entry with in_virt_set := com.in_virt_set.insert session_key }

/-- The size of the buffer that a read takes from. -/
def elem_size : List (List tagged) → Option Int
  | [] => none
  | queue_elem :: rest =>
    if (Int32.ofNat queue_elem.length).toInt ≤ 0 then elem_size rest
    else some (Int32.ofNat queue_elem.length).toInt

def erase (id : UInt32) (set : List UInt32) : List UInt32 :=
  set.filter (· ≠ id)

/-- What `read_from_pool` does to `in_virt_set`, when it copied some bytes of a record and these
buffers are left. -/
def virt_set (id : UInt32) (peek : Bool) (copied : Nat) (record : Record)
    (left : rx_queue tagged) (set : List UInt32) : List UInt32 :=
  let set := if peek = false ∧ ∃ size ∈ elem_size record.rx_queue.elems, (copied : Int) ≥ size
    then erase id set else set
  -- if more data, we *must* add it back to in_set
  if left.queue_bytes > 0 then set.insert id else set

def read_from_pool (id : UInt32) (n : Nat) (peek : Bool) (com : DatagramCom) :
    Option (read_result tagged × DatagramCom) :=
  match com.datagrams_received id with
  -- return hard error, terminate
  | none => some (.copied [], com)
  | some record =>
    match record.read_from_pool n peek with
    | none => none
    | some (.recv fd, _) => some (.recv fd, com)
    | some (.copied bytes, d) =>
      some (.copied bytes, { com.put id { record with toDatagram := d } with
        in_virt_set := virt_set id peek bytes.length record d.rx_queue com.in_virt_set })

/-- `UDPCom::in_readset`. `real` is what `baseCom::in_readset` says of a real socket. -/
def in_readset (real : Bool) (s : Int32) (com : DatagramCom) : Bool :=
  if s < 0 then
    match com.datagrams_received s.toUInt32 with
    | some record =>
      if record.rx_queue.queue_bytes > 0 then true else record.socket_left.isSome && real
    | none => false
  else if s > 0 then real
  else false

theorem put_same {com : DatagramCom} {id : UInt32} {record : Record}
    (h : com.datagrams_received id = some record) : com.put id record = com := by
  unfold put
  rw [← h, Function.update_eq_self]

theorem put_put (id : UInt32) (record record' : Record) (com : DatagramCom) :
    (com.put id record).put id record' = com.put id record' := by
  unfold put
  simp only [Function.update_idem]

/-- The record behind a datagram that was read from the socket. -/
def filled (o : udp.origin) (buff : List UInt8) (record : Record) : Record :=
  { record with toDatagram := (record.enqueue (buff.map fun b => (o, b))).2 }

/-- The buffers behind a datagram. -/
theorem filled_elems (o : origin) (buff : List UInt8) (record : Record) :
    ([] ∉ record.rx_queue.elems ∧
        (filled o buff record).rx_queue.elems = record.rx_queue.elems) ∨
      ∃ before behind, record.rx_queue.elems = before ++ [] :: behind ∧
        (filled o buff record).rx_queue.elems =
          before ++ (buff.map fun b => (o, b)) :: behind := by
  rcases enqueue_cases (buff.map fun b => (o, b)) record.rx_queue.elems with
    ⟨hfull, hsame⟩ | ⟨before, behind, helems, -, htaken⟩
  · exact Or.inl ⟨hfull, congrArg Prod.snd hsame⟩
  · exact Or.inr ⟨before, behind, helems, congrArg Prod.snd htaken⟩

/-- A datagram goes to the record of its key. A new record is in the set only with its socket. -/
theorem add_first_datagrams_cases (dist : generator) (o : udp.origin) (red : Option (List UInt8))
    (socket_left : Option Int) (com : DatagramCom) :
    let key := o.info.create_session_key dist true
    let fresh : Record := { src := o.src, dst := o.dst }
    let com' := com.add_first_datagrams dist o red socket_left
    (∃ record, com.datagrams_received key = some record ∧ ((red = none ∧ com' = com) ∨
        ∃ buff, red = some buff ∧ com' = { com.put key (filled o buff record) with
          in_virt_set := com.in_virt_set.insert key })) ∨
      com.datagrams_received key = none ∧ ((red = none ∧ com' = com.put key fresh) ∨
        ∃ buff, red = some buff ∧
          ((socket_left = none ∧ com' = com.put key (filled o buff fresh)) ∨
            ∃ fd, socket_left = some fd ∧
              com' = { com.put key { filled o buff fresh with socket_left := some fd } with
                in_virt_set := com.in_virt_set.insert key })) := by
  intro key fresh com'
  cases hrecord : com.datagrams_received key with
  | some record =>
    left
    refine ⟨record, rfl, ?_⟩
    cases red with
    | none =>
      refine Or.inl ⟨rfl, ?_⟩
      simp only [com', add_first_datagrams]
      rw [hrecord]
      exact put_same hrecord
    | some buff =>
      refine Or.inr ⟨buff, rfl, ?_⟩
      simp only [com', add_first_datagrams]
      rw [hrecord]
      simp only [put_put]
      rfl
  | none =>
    right
    refine ⟨rfl, ?_⟩
    cases red with
    | none =>
      refine Or.inl ⟨rfl, ?_⟩
      simp only [com', add_first_datagrams]
      rw [hrecord]
    | some buff =>
      refine Or.inr ⟨buff, rfl, ?_⟩
      cases socket_left with
      | none =>
        refine Or.inl ⟨rfl, ?_⟩
        simp only [com', add_first_datagrams]
        rw [hrecord]
        simp only [put_put]
        rfl
      | some fd =>
        refine Or.inr ⟨fd, rfl, ?_⟩
        simp only [com', add_first_datagrams]
        rw [hrecord]
        simp only [put_put]
        rfl

end DatagramCom

structure embryon where
  id : UInt32 := 0
  pool_depleted : Bool := false

/-- The session from whose record a read of the descriptor takes, if there is one. -/
def embryon.session (e : embryon) (fd : Int32) : Option UInt32 :=
  if e.id ≠ 0 ∧ e.pool_depleted = false then some e.id
  else if fd < 0 then some fd.toUInt32
  else none

/-- `UDPCom::read`. It gives nothing when it reads from the real socket `fd`. -/
def embryon.read (fd : Int32) (n : Nat) (peek real : Bool) (e : embryon) (com : DatagramCom) :
    Option (Option (read_result tagged) × embryon × DatagramCom) :=
  if e.id ≠ 0 ∧ e.pool_depleted = false then
    match com.read_from_pool e.id n peek with
    | none => none
    | some (r, com) =>
      if com.in_readset real e.id.toInt32 then some (some r, e, com)
      else
        some (some r, { e with pool_depleted := true },
          { com with in_virt_set := DatagramCom.erase e.id com.in_virt_set })
  else if fd < 0 then
    match com.read_from_pool fd.toUInt32 n peek with
    | none => none
    | some (r, com) => some (some r, e, com)
  else some (none, e, com)

/-- A read of the pool, by a worker. -/
theorem read_session {e : embryon} {fd : Int32} {id : UInt32} (h : e.session fd = some id)
    (n : Nat) (peek real : Bool) (com : DatagramCom) :
    (com.read_from_pool id n peek = none ∧ e.read fd n peek real com = none) ∨
      ∃ ret com₁ e' com₂, com.read_from_pool id n peek = some (ret, com₁) ∧
        e.read fd n peek real com = some (some ret, e', com₂) ∧
        (com₂ = com₁ ∨ com₁.in_readset real id.toInt32 = false ∧
          com₂ = { com₁ with in_virt_set := DatagramCom.erase id com₁.in_virt_set }) := by
  unfold embryon.session at h
  unfold embryon.read
  split_ifs at h ⊢ with hembryonic hvirtual
  · cases h
    cases hpool : com.read_from_pool e.id n peek with
    | none => exact Or.inl ⟨rfl, rfl⟩
    | some r =>
      right
      by_cases hset : r.2.in_readset real e.id.toInt32 = true
      · exact ⟨r.1, r.2, e, r.2, rfl, if_pos hset, Or.inl rfl⟩
      · exact ⟨r.1, r.2, _, _, rfl, if_neg hset, Or.inr ⟨Bool.not_eq_true _ ▸ hset, rfl⟩⟩
  · cases h
    cases hpool : com.read_from_pool fd.toUInt32 n peek with
    | none => exact Or.inl ⟨rfl, rfl⟩
    | some r => exact Or.inr ⟨r.1, r.2, e, r.2, rfl, rfl, Or.inl rfl⟩

theorem read_real {e : embryon} {fd : Int32} (h : e.session fd = none) (n : Nat)
    (peek real : Bool) (com : DatagramCom) : e.read fd n peek real com = some (none, e, com) := by
  unfold embryon.session at h
  unfold embryon.read
  split_ifs at h ⊢
  rfl

/-! ## Runs -/

/-- A read of a record: the record in front of it, the bytes of the pool that it gave, and the
buffers behind it. -/
structure taken where
  record : Record
  peek : Bool
  bytes : List tagged
  left : List (List tagged)

/-- A receiver with the `UDPCom`s of its workers, and its past: the last read of a record, and the
datagrams that were put into the buffers of a record, with the key of the record. -/
structure Receiver where
  com : DatagramCom := {}
  readers : Nat → embryon := fun _ => {}
  defined : Bool := true
  last : Option taken := none
  queued : List (UInt32 × origin) := []

namespace Receiver

inductive operation
  | datagram (o : origin) (red : Option (List UInt8)) (socket_left : Option Int)
  -- a worker takes a session over
  | accept (reader : Nat) (virtual_socket : UInt32)
  | read (reader : Nat) (fd : Int32) (n : Nat) (peek real : Bool)

def bytes_read : Option (read_result tagged) → List tagged
  | some (.copied bytes) => bytes
  | _ => []

/-- The read that was made between the two states. -/
def took (id : UInt32) (peek : Bool) (r : Option (read_result tagged)) (com com' : DatagramCom) :
    Option taken :=
  match com.datagrams_received id, com'.datagrams_received id with
  | some record, some record' =>
    some { record, peek, bytes := bytes_read r, left := record'.rx_queue.elems }
  | _, _ => none

/-- A record of the key has a buffer for a datagram, or there is none yet. -/
def room (key : UInt32) (com : DatagramCom) : Prop :=
  ∀ record ∈ com.datagrams_received key, [] ∈ record.rx_queue.elems

instance (key : UInt32) (com : DatagramCom) : Decidable (room key com) :=
  inferInstanceAs (Decidable (∀ record ∈ com.datagrams_received key, _))

def step (dist : generator) (r : Receiver) : operation → Option Receiver
  | .datagram o red socket_left =>
    if r.defined = false ∨ ∃ buff ∈ red, buff.length > buff_sz then none
    else
      let key := o.info.create_session_key dist true
      some { r with
        com := r.com.add_first_datagrams dist o red socket_left
        last := none
        queued := if red.isSome ∧ room key r.com then (key, o) :: r.queued else r.queued }
  | .accept reader virtual_socket =>
    match r.com.datagrams_received virtual_socket with
    | none => none
    | some _ =>
      some { r with
        readers := Function.update r.readers reader
          { r.readers reader with id := virtual_socket }
        last := none }
  | .read reader fd n peek real =>
    if r.defined = false then none
    else
      match (r.readers reader).read fd n peek real r.com with
      | none => some { r with defined := false }
      | some (ret, e, com) =>
        some { r with
          com
          readers := Function.update r.readers reader e
          last := ((r.readers reader).session fd).bind fun id => took id peek ret r.com com }

end Receiver

end socle.udp
