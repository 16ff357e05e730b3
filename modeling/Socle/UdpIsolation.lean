-- No session gets the datagrams of another flow (add_first_datagrams of
-- threadedreceiver.cpp, create_session_key and ss_address_unpack of
-- socketinfo.cpp).
import Socle.UdpSessions

namespace socle.udp

open lib.run

/-! ## The law -/

/-- An address, which is the same one when it is mapped into IPv6. -/
inductive address
  | ip4 (addr : UInt32)
  | ip6 (addr : List UInt32)
  | other
deriving DecidableEq, Repr

/-- `::ffff:0:0/96`, with the words of a little-endian machine. -/
def sockaddr_storage.mapped (s : sockaddr_storage) : Prop :=
  s.words.1 = 0 ∧ s.words.2.1 = 0 ∧ s.words.2.2.1 = 0xffff0000

instance (s : sockaddr_storage) : Decidable s.mapped :=
  inferInstanceAs (Decidable (_ ∧ _ ∧ _))

def sockaddr_storage.address (s : sockaddr_storage) : udp.address :=
  if s.ss_family = AF_INET6 then
    if s.mapped then .ip4 s.words.2.2.2 else .ip6 s.sin6_addr
  else if s.ss_family = AF_INET then .ip4 s.sin_addr
  else .other

/-- The flow of a datagram: both addresses and both ports. -/
def origin.flow (o : origin) : (address × UInt16) × (address × UInt16) :=
  ((o.src.address, o.src.port), (o.dst.address, o.dst.port))

/-- The datagrams in a record are of one flow, the one that the record was made for, and so are the
bytes that are read from it. -/
structure Isolated (r : Receiver) : Prop where
  together : ∀ q ∈ r.queued, ∀ q' ∈ r.queued, q.1 = q'.1 → q.2.flow = q'.2.flow
  own : ∀ q ∈ r.queued, ∀ record ∈ r.com.datagrams_received q.1, q.2.flow = record.origin.flow
  reads : ∀ t ∈ r.last, ∀ b ∈ t.bytes, b.1.flow = t.record.origin.flow

/-- When a datagram comes, no record of another flow has room for it for whose seeds the generator
draws the same number. -/
def Distinct (dist : generator) (r : Receiver) : Receiver.operation → Prop
  | .datagram o red _ => red ≠ none → ∀ id, ∀ record ∈ r.com.datagrams_received id,
    [] ∈ record.rx_queue.elems → dist record.origin.info.seeds = dist o.info.seeds →
      record.origin.flow = o.flow
  | _ => True

/-! ## Keys -/

/-- The key tells the number that was drawn. -/
theorem create_session_key_inj {dist : generator} {info info' : SocketInfo} :
    info.create_session_key dist true = info'.create_session_key dist true ↔
      dist info.seeds = dist info'.seeds := by
  have hmask : ∀ n : Fin (2 ^ 31), UInt32.ofNat n.val ||| 0x80000000 = UInt32.ofNat (n.val + 2 ^ 31) := by
    intro n
    have hn := n.isLt
    apply UInt32.toNat_inj.mp
    rw [UInt32.toNat_or, UInt32.toNat_ofNat_of_lt' (by simp [UInt32.size]; omega),
      UInt32.toNat_ofNat_of_lt' (by simp [UInt32.size]; omega), Nat.or_comm, Nat.add_comm]
    exact (Nat.two_pow_add_eq_or_of_lt hn 1).symm
  unfold SocketInfo.create_session_key
  simp only [if_true, hmask]
  constructor
  · intro heq
    have hnat := congrArg UInt32.toNat heq
    have hn := (dist info.seeds).isLt
    have hn' := (dist info'.seeds).isLt
    rw [UInt32.toNat_ofNat_of_lt' (by simp [UInt32.size]; omega),
      UInt32.toNat_ofNat_of_lt' (by simp [UInt32.size]; omega)] at hnat
    exact Fin.ext (by omega)
  · intro heq
    rw [heq]

/-- Unpacked, an address has its family, or is one of IPv4. -/
theorem unpacked_family (ptr : sockaddr_storage) :
    (AddressInfo.unpack ptr).family = ptr.ss_family ∨
      (AddressInfo.unpack ptr).family = AF_INET := by
  simp only [AddressInfo.unpack, ss_address_unpack]
  generalize (if ptr.ss_family = AF_INET6 then _ else _ : text × UInt16) = b
  by_cases hprefix : mapped_prefix.isPrefixOf b.1
  · exact Or.inr (by rw [if_pos hprefix])
  · exact Or.inl (by rw [if_neg hprefix])

/-- The seeds of an IPv4 source are the words behind both ports, and the ports. -/
theorem seeds_ip4 {o : origin} (h : o.src.ss_family = AF_INET) :
    o.info.seeds = seeds4 o.src o.dst := by
  have hfamily : o.info.src.family = AF_INET := by
    rcases unpacked_family o.src with hsame | hip4
    · exact hsame.trans h
    · exact hip4
  unfold SocketInfo.seeds
  rw [hfamily, if_neg (by decide)]
  rfl

theorem ntohs_ntohs (p : UInt16) : ntohs (ntohs p) = p := by
  unfold ntohs
  apply UInt16.toBitVec_inj.mp
  apply BitVec.eq_of_getLsbD_eq
  intro i hi
  have hout : p.toBitVec.getLsbD (8 + (8 + i)) = false := BitVec.getLsbD_of_ge _ _ (by omega)
  simp only [UInt16.toBitVec_or, UInt16.toBitVec_shiftLeft, UInt16.toBitVec_shiftRight]
  simp [BitVec.getLsbD_or, BitVec.getLsbD_shiftLeft, BitVec.getLsbD_ushiftRight, hout]
  by_cases hlow : i < 8
  · simp only [hlow, decide_true, Bool.not_true, Bool.and_false, Bool.false_and, Bool.false_or]
    have hin : 8 + i < 16 := by omega
    simp [hin]
  · have hback : 8 + (i - 8) = i := by omega
    have hin : ¬ 8 + i < 16 := by omega
    have hshift : i - 8 < 8 := by omega
    simp [hlow, hback, hin, hshift, hi]

theorem ntohs_inj {a b : UInt16} (h : (ntohs a).toUInt32 = (ntohs b).toUInt32) : a = b := by
  have hsame : ntohs a = ntohs b := UInt16.toUInt32_inj.mp h
  rw [← ntohs_ntohs a, hsame, ntohs_ntohs]

/-- The seeds tell IPv4 flows apart. -/
theorem seeds_ip4_inj {o o' : origin} (hs : o.src.ss_family = AF_INET)
    (hs' : o'.src.ss_family = AF_INET) (hd : o.dst.ss_family = AF_INET)
    (hd' : o'.dst.ss_family = AF_INET) : o.info.seeds = o'.info.seeds ↔ o.flow = o'.flow := by
  have hno : AF_INET ≠ AF_INET6 := by decide
  rw [seeds_ip4 hs, seeds_ip4 hs']
  simp only [seeds4, List.cons.injEq, and_true, origin.flow, sockaddr_storage.address, hs, hs', hd,
    hd', hno, if_false, if_true, Prod.mk.injEq, address.ip4.injEq]
  constructor
  · rintro ⟨hsrc, hdst, hsport, hdport⟩
    exact ⟨⟨hsrc, ntohs_inj hsport⟩, hdst, ntohs_inj hdport⟩
  · rintro ⟨⟨hsrc, hsport⟩, hdst, hdport⟩
    rw [hsrc, hdst, hsport, hdport]
    exact ⟨rfl, rfl, rfl, rfl⟩

/-- The text of a mapped address starts like one. -/
theorem mapped_text (x : UInt32) :
    mapped_prefix.isPrefixOf (inet_ntop6 ([0, 0, 0xffff0000, x].flatMap bytes_of)) = true := by
  obtain ⟨a, b, hwords⟩ : ∃ a b,
      words_of ([0, 0, 0xffff0000, x].flatMap bytes_of) = [0, 0, 0, 0, 0, 0xffff, a, b] :=
    ⟨_, _, rfl⟩
  have hrun : zero_run 0 none none [0, 0, 0, 0, 0, 0xffff, a, b] = some (0, 5) := by
    cases a <;> cases b <;> rfl
  have hhex : Nat.toDigits 16 0xffff = ['f', 'f', 'f', 'f'] := by decide
  simp only [inet_ntop6, hwords, hrun]
  generalize inet_ntop4 _ = four
  simp [List.range, List.range.loop, mapped_prefix, Option.filter, hhex, List.isPrefixOf]

/-- A mapped source is seeded as if it were of IPv4, with `sin6_flowinfo` for its address. -/
theorem seeds_mapped {o : origin} (h : o.src.ss_family = AF_INET6) (hm : o.src.mapped) :
    o.info.seeds = seeds4 o.src o.dst := by
  have hfamily : o.info.src.family = AF_INET := by
    simp only [origin.info, AddressInfo.unpack, ss_address_unpack, h, if_true,
      sockaddr_storage.sin6_addr, hm.1, hm.2.1, hm.2.2, mapped_text]
  unfold SocketInfo.seeds
  rw [hfamily, if_neg (by decide)]
  rfl

/-- No generator tells all IPv4 flows apart: they are more than the numbers. -/
theorem no_generator_is_injective (dist : generator) : ∃ o o' : origin,
    o.src.ss_family = AF_INET ∧ o'.src.ss_family = AF_INET ∧ o.flow ≠ o'.flow ∧
      dist o.info.seeds = dist o'.info.seeds := by
  let sender : Fin (2 ^ 32) → origin := fun n =>
    { src := { ss_family := AF_INET, port := 0x8813, word := UInt32.ofNat n.val },
      dst := { ss_family := AF_INET, port := 0x3500, word := 0x08080808 } }
  obtain ⟨m, n, hne, hsame⟩ := Fintype.exists_ne_map_eq_of_card_lt
    (fun n => dist (sender n).info.seeds) (by simp)
  refine ⟨sender m, sender n, rfl, rfl, fun hflow => hne ?_, hsame⟩
  have hword : UInt32.ofNat m.val = UInt32.ofNat n.val :=
    address.ip4.inj (congrArg (fun f => f.1.1) hflow)
  have hnat := congrArg UInt32.toNat hword
  rw [UInt32.toNat_ofNat_of_lt' m.isLt, UInt32.toNat_ofNat_of_lt' n.isLt] at hnat
  exact Fin.ext hnat

/-! ## Bytes -/

/-- A read gives and leaves bytes of the buffers. -/
theorem read_elem_mem {β : Type} {n : Nat} {peek : Bool} {elems : List (List β)}
    {r : List β × List (List β)} (h : read_elem n peek elems = some r) :
    (∀ b ∈ r.1, b ∈ elems.flatten) ∧ ∀ b ∈ r.2.flatten, b ∈ elems.flatten := by
  induction elems generalizing r with
  | nil =>
    cases h
    exact ⟨fun _ hb => hb, fun _ hb => hb⟩
  | cons elem rest ih =>
    simp only [read_elem] at h
    simp only [List.flatten_cons, List.mem_append]
    split_ifs at h with hsize hneg hpeek
    · obtain ⟨q, hq, rfl⟩ := Option.map_eq_some_iff.mp h
      obtain ⟨hgiven, hleft⟩ := ih hq
      refine ⟨fun b hb => Or.inr (hgiven b hb), fun b hb => ?_⟩
      rw [List.flatten_cons, List.mem_append] at hb
      exact hb.imp_right (hleft b)
    · cases h
      refine ⟨fun b hb => Or.inl (List.mem_of_mem_take hb), fun b hb => ?_⟩
      exact List.mem_append.mp hb
    · cases h
      refine ⟨fun b hb => Or.inl (List.mem_of_mem_take hb), fun b hb => ?_⟩
      rw [List.flatten_cons, List.mem_append] at hb
      refine hb.imp_left fun hflushed => ?_
      unfold flush at hflushed
      split_ifs at hflushed
      · cases hflushed
      · exact List.mem_of_mem_drop hflushed

theorem read_from_pool_mem {d d' : Datagram tagged} {n : Nat} {peek : Bool}
    {r : read_result tagged} (h : d.read_from_pool n peek = some (r, d')) :
    (∀ b ∈ Receiver.bytes_read (some r), b ∈ d.rx_queue.elems.flatten) ∧
      ∀ b ∈ d'.rx_queue.elems.flatten, b ∈ d.rx_queue.elems.flatten := by
  unfold Datagram.read_from_pool at h
  split at h
  · cases h
    exact ⟨fun _ hb => absurd hb List.not_mem_nil, fun _ hb => hb⟩
  · cases h
    exact ⟨fun _ hb => absurd hb List.not_mem_nil, fun _ hb => hb⟩
  · split at h
    · cases h
    next r hr =>
      cases h
      exact read_elem_mem hr

namespace DatagramCom

/-- The records that a read leaves are the old ones with some of their bytes. -/
def Narrowed (com com' : DatagramCom) : Prop :=
  ∀ i, (com'.datagrams_received i = none ↔ com.datagrams_received i = none) ∧
    ∀ record', com'.datagrams_received i = some record' →
      ∃ record, com.datagrams_received i = some record ∧ record'.origin = record.origin ∧
        ∀ b ∈ record'.rx_queue.elems.flatten, b ∈ record.rx_queue.elems.flatten

/-- What is in the records after a read was there before. -/
theorem read_from_pool_records {com com' : DatagramCom} {id : UInt32} {n : Nat} {peek : Bool}
    {ret : read_result tagged} (h : com.read_from_pool id n peek = some (ret, com')) :
    (∀ record, com.datagrams_received id = some record →
        ∀ b ∈ Receiver.bytes_read (some ret), b ∈ record.rx_queue.elems.flatten) ∧
      Narrowed com com' := by
  have hsame : ∀ i record', com.datagrams_received i = some record' →
      ∃ record, com.datagrams_received i = some record ∧ record'.origin = record.origin ∧
        ∀ b ∈ record'.rx_queue.elems.flatten, b ∈ record.rx_queue.elems.flatten :=
    fun i record' hrecord' => ⟨record', hrecord', rfl, fun _ hb => hb⟩
  unfold read_from_pool at h
  split at h
  next hnone =>
    cases h
    refine ⟨fun record hrecord => ?_, fun i => ⟨Iff.rfl, hsame i⟩⟩
    rw [hnone] at hrecord
    cases hrecord
  next record hrecord =>
    split at h
    · cases h
    next =>
      cases h
      exact ⟨fun _ _ b hb => absurd hb List.not_mem_nil, fun i => ⟨Iff.rfl, hsame i⟩⟩
    next bytes d hpool =>
      cases h
      obtain ⟨hgiven, hleft⟩ := read_from_pool_mem hpool
      refine ⟨fun record' hrecord' => ?_, fun i => ?_⟩
      · rw [hrecord, Option.some.injEq] at hrecord'
        rw [← hrecord']
        exact hgiven
      · by_cases hi : i = id
        · subst hi
          have hself : Function.update com.datagrams_received i
              (some { record with toDatagram := d }) i = some { record with toDatagram := d } :=
            Function.update_self ..
          refine ⟨iff_of_false ?_ ?_, fun record' hrecord' => ?_⟩
          · exact fun hnone => nomatch hself.symm.trans hnone
          · exact fun hnone => nomatch hrecord.symm.trans hnone
          · cases hself.symm.trans hrecord'
            exact ⟨record, hrecord, rfl, hleft⟩
        · have hother : Function.update com.datagrams_received id
              (some { record with toDatagram := d }) i = com.datagrams_received i :=
            Function.update_of_ne hi _ _
          refine ⟨?_, fun record' hrecord' => hsame i record' (hother.symm.trans hrecord')⟩
          exact ⟨fun hnone => hother.symm.trans hnone, fun hnone => hother.trans hnone⟩

end DatagramCom

/-! ## Each run -/

/-- The invariant: a record has the key of its addresses, and data of its flow only. -/
structure Owned (dist : generator) (r : Receiver) : Prop where
  keys : ∀ id record, r.com.datagrams_received id = some record →
    record.origin.info.create_session_key dist true = id
  owner : ∀ q ∈ r.queued, ∃ record, r.com.datagrams_received q.1 = some record ∧
    q.2.flow = record.origin.flow
  bytes : ∀ id record, r.com.datagrams_received id = some record →
    ∀ b ∈ record.rx_queue.elems.flatten, b.1.flow = record.origin.flow

theorem owned_start (dist : generator) : Owned dist {} := by
  refine ⟨?_, ?_, ?_⟩
  · exact fun _ _ h => nomatch h
  · exact fun _ h => nomatch h
  · exact fun _ _ h => nomatch h

theorem Owned.isolated {dist : generator} {r : Receiver} (h : Owned dist r)
    (hreads : ∀ t ∈ r.last, ∀ b ∈ t.bytes, b.1.flow = t.record.origin.flow) : Isolated r := by
  refine ⟨fun q hq q' hq' hkey => ?_, fun q hq record hrecord => ?_, hreads⟩
  · obtain ⟨record, hrecord, hflow⟩ := h.owner q hq
    obtain ⟨record', hrecord', hflow'⟩ := h.owner q' hq'
    rw [hkey, hrecord', Option.some.injEq] at hrecord
    rw [hflow, hflow', hrecord]
  · obtain ⟨record', hrecord', hflow⟩ := h.owner q hq
    rw [hrecord', Option.mem_some_iff] at hrecord
    rw [hflow, hrecord]

namespace Receiver

/-- A record is put in the place of one of the same addresses, or at a new key. -/
theorem owned_put {dist : generator} {r r' : Receiver} (h : Owned dist r) {key : UInt32}
    (record : Record)
    (hput : r'.com.datagrams_received = Function.update r.com.datagrams_received key (some record))
    (hkey : record.origin.info.create_session_key dist true = key)
    (hold : ∀ old, r.com.datagrams_received key = some old → record.origin = old.origin)
    (hbytes : ∀ b ∈ record.rx_queue.elems.flatten, b.1.flow = record.origin.flow)
    (hqueued : ∀ q ∈ r'.queued, q ∈ r.queued ∨ q.1 = key ∧ q.2.flow = record.origin.flow) :
    Owned dist r' := by
  have hself : r'.com.datagrams_received key = some record := by rw [hput, Function.update_self]
  have hother : ∀ i ≠ key, r'.com.datagrams_received i = r.com.datagrams_received i := by
    intro i hi
    rw [hput, Function.update_of_ne hi]
  refine ⟨?_, ?_, ?_⟩
  · intro i record' hi
    by_cases hik : i = key
    · subst hik
      cases hself.symm.trans hi
      exact hkey
    · exact h.keys i record' ((hother i hik).symm.trans hi)
  · intro q hq
    rcases hqueued q hq with hq | ⟨hqkey, hflow⟩
    · obtain ⟨old, hlookup, hflow⟩ := h.owner q hq
      by_cases hik : q.1 = key
      · rw [hik] at hlookup ⊢
        exact ⟨record, hself, hflow.trans (congrArg origin.flow (hold old hlookup).symm)⟩
      · exact ⟨old, (hother q.1 hik).trans hlookup, hflow⟩
    · rw [hqkey]
      exact ⟨record, hself, hflow⟩
  · intro i record' hi
    by_cases hik : i = key
    · subst hik
      cases hself.symm.trans hi
      exact hbytes
    · exact h.bytes i record' ((hother i hik).symm.trans hi)

/-- The bytes of a record behind a datagram, when the datagram was of its flow or found no room. -/
theorem filled_flow {o : origin} {buff : List UInt8} {record : Record}
    (hold : ∀ b ∈ record.rx_queue.elems.flatten, b.1.flow = record.origin.flow)
    (hroom : [] ∈ record.rx_queue.elems → record.origin.flow = o.flow) :
    ∀ b ∈ (DatagramCom.filled o buff record).rx_queue.elems.flatten,
      b.1.flow = record.origin.flow := by
  rcases DatagramCom.filled_elems o buff record with
    ⟨-, hsame⟩ | ⟨before, behind, helems, hfilled⟩
  · rw [hsame]
    exact hold
  · have hflow : record.origin.flow = o.flow := by
      apply hroom
      rw [helems]
      exact List.mem_append_right _ List.mem_cons_self
    rw [helems] at hold
    rw [hfilled]
    intro b hb
    simp only [List.flatten_append, List.flatten_cons, List.nil_append, List.mem_append] at hb hold
    rcases hb with hb | hb | hb
    · exact hold b (Or.inl hb)
    · obtain ⟨-, -, rfl⟩ := List.mem_map.mp hb
      exact hflow.symm
    · exact hold b (Or.inr hb)

/-- What is queued anew, is queued in the record of the key. -/
theorem queued_cases {r r' : Receiver} {key : UInt32} {o : origin} {red : Option (List UInt8)}
    {record : Record}
    (hqueued : r'.queued = if red.isSome ∧ room key r.com then (key, o) :: r.queued else r.queued)
    (hflow : red ≠ none → room key r.com → o.flow = record.origin.flow) :
    ∀ q ∈ r'.queued, q ∈ r.queued ∨ q.1 = key ∧ q.2.flow = record.origin.flow := by
  intro q hq
  rw [hqueued] at hq
  split_ifs at hq with hnew
  · rcases List.mem_cons.mp hq with rfl | hq
    · exact Or.inr ⟨rfl, hflow (Option.isSome_iff_ne_none.mp hnew.1) hnew.2⟩
    · exact Or.inl hq
  · exact Or.inl hq

theorem fresh_flow (o : origin) : ∀ b ∈ ({ src := o.src, dst := o.dst } : Record).rx_queue.elems.flatten,
    b.1.flow = o.flow := by
  intro b hb
  simp at hb

/-- A datagram is queued in the record of its own flow, when no other record has its key. -/
theorem datagram_owned {dist : generator} {r r' : Receiver} (h : Owned dist r) {o : origin}
    {red : Option (List UInt8)} {socket_left : Option Int}
    (hc : Distinct dist r (.datagram o red socket_left))
    (hs : step dist r (.datagram o red socket_left) = some r') : Owned dist r' ∧ Isolated r' := by
  obtain ⟨hcom, hlast, hqueued⟩ : r'.com = r.com.add_first_datagrams dist o red socket_left ∧
      r'.last = none ∧ r'.queued =
        if red.isSome ∧ room (o.info.create_session_key dist true) r.com
        then (o.info.create_session_key dist true, o) :: r.queued else r.queued := by
    simp only [step] at hs
    split at hs
    · cases hs
    · cases hs
      exact ⟨rfl, rfl, rfl⟩
  suffices howned : Owned dist r' from
    ⟨howned, howned.isolated fun t ht => by rw [hlast] at ht; cases ht⟩
  rcases r.com.add_first_datagrams_cases dist o red socket_left with
    ⟨record, hrecord, ⟨hred, heq⟩ | ⟨buff, hred, heq⟩⟩ | ⟨hnone, ⟨hred, heq⟩ | ⟨buff, hred, ⟨-, heq⟩ |
      ⟨fd, -, heq⟩⟩⟩ <;> rw [heq] at hcom
  · rw [hred, if_neg fun hnew => Bool.false_ne_true hnew.1] at hqueued
    refine ⟨?_, ?_, ?_⟩
    · rw [hcom]
      exact h.keys
    · rw [hcom, hqueued]
      exact h.owner
    · rw [hcom]
      exact h.bytes
  · have hflow : [] ∈ record.rx_queue.elems → record.origin.flow = o.flow := by
      intro hroom
      apply hc (by simp [hred]) _ record hrecord hroom
      exact create_session_key_inj.mp (h.keys _ record hrecord)
    apply owned_put h (DatagramCom.filled o buff record) (by rw [hcom]; rfl)
    · exact h.keys _ record hrecord
    · exact fun old hold => by rw [Option.some.inj (hrecord.symm.trans hold)]; rfl
    · exact filled_flow (h.bytes _ record hrecord) hflow
    · exact queued_cases hqueued fun _ hroom => (hflow (hroom record hrecord)).symm
  · apply owned_put h { src := o.src, dst := o.dst } (by rw [hcom]; rfl) rfl
    · exact fun old hold => nomatch hnone.symm.trans hold
    · exact fresh_flow o
    · exact queued_cases hqueued fun _ _ => rfl
  · apply owned_put h (DatagramCom.filled o buff { src := o.src, dst := o.dst })
      (by rw [hcom]; rfl) rfl
    · exact fun old hold => nomatch hnone.symm.trans hold
    · exact filled_flow (fresh_flow o) fun _ => rfl
    · exact queued_cases hqueued fun _ _ => rfl
  · apply owned_put h { DatagramCom.filled o buff { src := o.src, dst := o.dst } with
      socket_left := some fd } (by rw [hcom]; rfl) rfl
    · exact fun old hold => nomatch hnone.symm.trans hold
    · have hbytes : ∀ b ∈ (DatagramCom.filled o buff
          { src := o.src, dst := o.dst }).rx_queue.elems.flatten, b.1.flow = o.flow :=
        filled_flow (fresh_flow o) fun _ => rfl
      exact hbytes
    · exact queued_cases hqueued fun _ _ => rfl

/-- When the law holds behind a datagram, no other record had its key. -/
theorem distinct_datagram {dist : generator} {r r' : Receiver} (h : Owned dist r) {o : origin}
    {red : Option (List UInt8)} {socket_left : Option Int}
    (hs : step dist r (.datagram o red socket_left) = some r') (hlaw : Isolated r') :
    Distinct dist r (.datagram o red socket_left) := by
  intro hred id record hrecord hroom hdraw
  have hkey : o.info.create_session_key dist true = id := by
    rw [← h.keys id record hrecord]
    exact create_session_key_inj.mpr hdraw.symm
  simp only [step] at hs
  split at hs
  · cases hs
  · obtain ⟨buff, rfl⟩ := Option.ne_none_iff_exists'.mp hred
    have hroom' : room id r.com := by
      intro record' hrecord'
      rw [Option.some.inj (hrecord.symm.trans hrecord')] at hroom
      exact hroom
    rw [hkey, if_pos ⟨rfl, hroom'⟩] at hs
    rcases r.com.add_first_datagrams_cases dist o (some buff) socket_left with
      ⟨record', hrecord', ⟨hnone, -⟩ | ⟨buff', -, heq⟩⟩ | ⟨hnone, -⟩
    · cases hnone
    · rw [hkey, hrecord, Option.some.injEq] at hrecord'
      subst hrecord'
      rw [heq, hkey] at hs
      cases hs
      have hown := hlaw.own (id, o) List.mem_cons_self (DatagramCom.filled o buff' record)
        (Function.update_self ..)
      exact hown.symm
    · rw [hkey, hrecord] at hnone
      cases hnone

theorem narrowed_owned {dist : generator} {r r' : Receiver} (hn : DatagramCom.Narrowed r.com r'.com)
    (h : Owned dist r) (hqueued : r'.queued = r.queued) : Owned dist r' := by
  refine ⟨?_, ?_, ?_⟩
  · intro id record' hrecord'
    obtain ⟨record, hrecord, horigin, -⟩ := (hn id).2 record' hrecord'
    rw [horigin]
    exact h.keys id record hrecord
  · intro q hq
    rw [hqueued] at hq
    obtain ⟨record, hrecord, hflow⟩ := h.owner q hq
    obtain ⟨record', hrecord'⟩ : ∃ record', r'.com.datagrams_received q.1 = some record' := by
      apply Option.ne_none_iff_exists'.mp
      rw [Ne, (hn q.1).1, hrecord]
      exact Option.some_ne_none record
    obtain ⟨old, hold, horigin, -⟩ := (hn q.1).2 record' hrecord'
    rw [hrecord, Option.some.injEq] at hold
    refine ⟨record', hrecord', ?_⟩
    rw [hflow, hold, horigin]
  · intro id record' hrecord' b hb
    obtain ⟨record, hrecord, horigin, hbytes⟩ := (hn id).2 record' hrecord'
    rw [horigin]
    exact h.bytes id record hrecord b (hbytes b hb)

/-- A read leaves each record its own, and gives bytes of its flow. -/
theorem read_owned {dist : generator} {r r' : Receiver} (h : Owned dist r) (hlaw : Isolated r)
    {reader : Nat} {fd : Int32} {n : Nat} {peek real : Bool}
    (hs : step dist r (.read reader fd n peek real) = some r') : Owned dist r' ∧ Isolated r' := by
  simp only [step] at hs
  split at hs
  · cases hs
  have hsame : DatagramCom.Narrowed r.com r.com :=
    fun i => ⟨Iff.rfl, fun record' hrecord' => ⟨record', hrecord', rfl, fun _ hb => hb⟩⟩
  cases hsession : (r.readers reader).session fd with
  | none =>
    rw [read_real hsession, hsession] at hs
    cases hs
    have howned : Owned dist { r with
        readers := Function.update r.readers reader (r.readers reader), last := none } :=
      narrowed_owned (by exact hsame) h rfl
    exact ⟨howned, howned.isolated fun t ht => nomatch ht⟩
  | some id =>
    rcases read_session hsession n peek real r.com with
      ⟨-, hread⟩ | ⟨ret, com₁, e', com₂, hpool, hread, hcom⟩
    · rw [hread] at hs
      cases hs
      have howned : Owned dist { r with defined := false } :=
        narrowed_owned (by exact hsame) h rfl
      exact ⟨howned, howned.isolated hlaw.reads⟩
    · obtain ⟨hgiven, hrecords⟩ := DatagramCom.read_from_pool_records hpool
      have hlookup : com₂.datagrams_received = com₁.datagrams_received := by
        rcases hcom with rfl | ⟨-, rfl⟩ <;> rfl
      have hnarrowed : DatagramCom.Narrowed r.com com₂ := by
        unfold DatagramCom.Narrowed
        rw [hlookup]
        exact hrecords
      rw [hread, hsession] at hs
      cases hs
      have howned : Owned dist { r with
          com := com₂
          readers := Function.update r.readers reader e'
          last := took id peek (some ret) r.com com₂ } :=
        narrowed_owned hnarrowed h rfl
      refine ⟨howned, howned.isolated fun t ht b hb => ?_⟩
      simp only [took] at ht
      split at ht
      next record record' hrecord _ =>
        cases ht
        exact h.bytes id record hrecord b (hgiven record hrecord b hb)
      next => cases ht

end Receiver

/-- The datagrams of a record are of one flow in each run in which no number is drawn for two flows,
and in no other run. -/
theorem sessions_are_isolated (dist : generator) (ops : List Receiver.operation) :
    Always (Receiver.step dist) Isolated {} ops ↔
      Meets (Receiver.step dist) (Distinct dist) {} ops := by
  refine always_iff_meets (P := fun r => Owned dist r ∧ Isolated r) (fun r h => h.2) ?_ ?_ ?_ ops
  · intro r a r' h hc hs
    cases a with
    | datagram o red socket_left => exact Receiver.datagram_owned h.1 hc hs
    | read reader fd n peek real => exact Receiver.read_owned h.1 h.2 hs
    | accept reader virtual_socket =>
      simp only [Receiver.step] at hs
      split at hs
      · cases hs
      · cases hs
        exact ⟨⟨h.1.keys, h.1.owner, h.1.bytes⟩, h.2.together, h.2.own, fun t ht => nomatch ht⟩
  · intro r a r' h hc hs hlaw
    cases a with
    | datagram o red socket_left => exact hc (Receiver.distinct_datagram h.1 hs hlaw)
    | read reader fd n peek real => exact hc trivial
    | accept reader virtual_socket => exact hc trivial
  · exact ⟨owned_start dist, (owned_start dist).isolated fun t ht => nomatch ht⟩

/-- A datagram to 8.8.8.8:53 from port 5000 of ::ffff:10.0.0.n. -/
def mapped_origin (n : UInt32) : origin where
  src := { ss_family := AF_INET6, port := 0x8813, words := (0, 0, 0xffff0000, n <<< 24 ||| 0x0a) }
  dst := { ss_family := AF_INET, port := 0x3500, word := 0x08080808 }

/-- Whatever the generator draws, two mapped sources with the same ports share a record. -/
theorem mapped_sources_share_a_record :
    ¬ ∃ dist : generator, ∀ ops : List Receiver.operation,
      Always (Receiver.step dist) Isolated {} ops := by
  rintro ⟨dist, hall⟩
  have hall := hall [.datagram (mapped_origin 1) (some [7]) (some 9),
    .datagram (mapped_origin 2) (some [8]) (some 9)]
  obtain ⟨r₁, hs₁, record, hrecord, hroom, horigin, hdefined⟩ : ∃ r₁,
      Receiver.step dist {} (.datagram (mapped_origin 1) (some [7]) (some 9)) = some r₁ ∧
        ∃ record, r₁.com.datagrams_received
            ((mapped_origin 1).info.create_session_key dist true) = some record ∧
          [] ∈ record.rx_queue.elems ∧ record.origin = mapped_origin 1 ∧ r₁.defined = true :=
    ⟨_, rfl, _, Function.update_self .., by decide, rfl, rfl⟩
  obtain ⟨r₂, hs₂⟩ : ∃ r₂,
      Receiver.step dist r₁ (.datagram (mapped_origin 2) (some [8]) (some 9)) = some r₂ := by
    simp [Receiver.step, hdefined, buff_sz]
  have hlaw : Isolated r₂ := always_here ((hall.2 r₁ hs₁).2 r₂ hs₂)
  have hfirst : Distinct dist {} (.datagram (mapped_origin 1) (some [7]) (some 9)) :=
    fun _ _ _ h => nomatch h
  have howned := (Receiver.datagram_owned (owned_start dist) hfirst hs₁).1
  have hseeds : (mapped_origin 1).info.seeds = (mapped_origin 2).info.seeds := by
    rw [seeds_mapped rfl (by decide), seeds_mapped rfl (by decide)]
    rfl
  have hflow := Receiver.distinct_datagram howned hs₂ hlaw (by simp) _ record hrecord hroom
    (by rw [horigin, hseeds])
  rw [horigin] at hflow
  exact absurd hflow (by decide)

end socle.udp
