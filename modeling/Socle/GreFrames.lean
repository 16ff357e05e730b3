-- Captured packets in a GRE tunnel (pcapapi.cpp): an outer header, a GRE header,
-- and the packet as it is without the tunnel. The outer header comes from the
-- function for inner ones, and is changed behind its checksum.
import Socle.Checksums

namespace socle.pcap.frames

open lib.bytes lib.ones
open socle.udp (AF_INET AF_INET6 sockaddr_storage)

/-! ## Packets -/

section
variable (config : CONFIG) (pton : inet_pton)

/-- Outwards or inwards. -/
def direction (inwards : Bool) : Int := if inwards then 1 else 0

/-- What stands behind the link header: the IP header, and the segment or datagram. -/
def packet (details : tcp_details connection_details) (in_ : Int) (payload : List UInt8)
    (tcpflags : UInt8) : Except error (List UInt8) := do
  let (ip_header, ip) ← append_IP_header config pton [] details.ip in_ payload.length
  if details.ip.next_proto = TCP then
    pure ((append_TCP_header config ip_header { details with ip } in_ payload tcpflags).1 ++ payload)
  else pure (append_UDP_header config ip_header ip in_ payload ++ payload)

/-- The same connection without a tunnel. -/
def untunnelled (details : connection_details) : connection_details :=
  { details with tun_proto := 0 }

/-! ## The law -/

/-- The address of an endpoint, in the bytes of its family. -/
def endpoint (a : AddressInfo) : Option (List UInt8) :=
  let ss := pack_ss pton a.family a.str_host a.port
  if a.family = AF_INET then some (pcapng.u32 ss.sin_addr)
  else if a.family = AF_INET6 then some (in6_addr.bytes ss.words)
  else none

/-- The addresses of the tunnel. Without a description they are unspecified. -/
def ends (details : connection_details) : Option (List UInt8 × List UInt8) :=
  match details.tun_details with
  | none => some (pcapng.u32 0, pcapng.u32 0)
  | some tun => (endpoint pton tun.src).bind fun src => (endpoint pton tun.dst).map fun dst => (src, dst)

/-- The tunnel runs over IPv6 when its source does. -/
def over_v6 (details : connection_details) : Bool :=
  details.tun_details.any fun tun => tun.src.family = AF_INET6

/-- An outer header in front of `rest` bytes. -/
structure Outer (v6 : Bool) (src dst : List UInt8) (rest : Nat) (outer : List UInt8) : Prop where
  size : outer.length = if v6 then sizeof_ip6_hdr else sizeof_iphdr
  version : (outer.getD 0 0).toNat / 16 = if v6 then 6 else 4
  length : if v6 then be16 (outer.getD 4 0) (outer.getD 5 0) = rest
    else be16 (outer.getD 2 0) (outer.getD 3 0) = sizeof_iphdr + rest
  protocol : outer.getD (if v6 then 6 else 9) 0 = IPPROTO_GRE
  addresses : (if v6 then outer.drop 8 else outer.drop 12) = src ++ dst
  sum : v6 = false → config.CALCULATE_CHECKSUMS → ones_sum outer = 0xFFFF

/-- A GRE header without flags that names the version of what is inside. -/
def Names (ip_version : UInt8) (gre : List UInt8) : Prop :=
  gre = [0, 0] ++ if ip_version = 6 then [0x86, 0xDD] else [0x08, 0x00]

/-- The packet `inner` in the tunnel of a connection. -/
def Tunnelled (details : connection_details) (inner bytes : List UInt8) : Prop :=
  ∃ outer gre src dst, ends pton details = some (src, dst) ∧ bytes = outer ++ gre ++ inner ∧
    Outer config (over_v6 details) src dst (gre.length + inner.length) outer ∧
    Names details.ip_version gre

/-- What a frame of a pcap file appends. -/
def pcap_frame (now : UInt32 × UInt32) (out_buffer : List UInt8)
    (details : tcp_details connection_details) (in_ : Int) (payload : List UInt8)
    (tcpflags : UInt8) : Except error (List UInt8) :=
  if details.ip.next_proto = TCP then
    (append_TCP_frame config pton now out_buffer payload payload.length in_ tcpflags details).map
      fun r => r.2.1
  else
    (append_UDP_frame config pton now out_buffer payload payload.length in_ details.ip).map
      fun r => r.2.1

/-- What is in a block of a pcapng file: of `append_UDP`, or of a turn of `append_TCP`. It throws
where its IP header does. -/
def pcapng_packet (now : UInt32 × UInt32) (s : loop connection_details) (data_size in_ : Int)
    (tcpflags : UInt8) : Except error (List UInt8) :=
  let payload := s.cur_data.take s.to_write.toNat
  if s.details.ip.next_proto = TCP then do
    let _ ← append_IP_header config pton (append_LCC_header [] s.details.ip in_) s.details.ip in_
      s.to_write.toNat
    pure ((turn (tcp_chksum config) (lower_headers config pton) now data_size in_ tcpflags
      s).epb.packet_data.getD [])
  else
    (append_UDP config pton now s.epb s.out_buffer payload payload.length in_ s.details.ip).map
      fun r => r.2.2.1.packet_data.getD []

/-- In front of `size` bytes in a pcap file: the headers of the record and the link, and `caplen`
is the number of bytes that follow the first. -/
def Record (out_buffer front : List UInt8) (size : Nat) : Prop :=
  ∃ record link, front = out_buffer ++ record ++ link ∧ record.length = 16 ∧
    link.length = sizeof_linux_cooked_capture ∧
    (record.drop 8).take 4 = pcapng.u32 (UInt32.ofNat (link.length + size))

/-- In a block only the header of the link is in front. -/
def Block (front : List UInt8) (_ : Nat) : Prop :=
  front.length = sizeof_linux_cooked_capture

/-- A capture is consistent when the packet is emitted behind what belongs in front, and is in the
tunnel as it is without one. -/
def Consistent (Front : List UInt8 → Nat → Prop) (details : tcp_details connection_details)
    (in_ : Int) (payload : List UInt8) (tcpflags : UInt8) (emitted : Except error (List UInt8)) :
    Prop :=
  ∃ inner front bytes,
    packet config pton { details with ip := untunnelled details.ip } in_ payload tcpflags = .ok inner ∧
    emitted = .ok (front ++ bytes) ∧ Front front bytes.length ∧
    Tunnelled config pton details.ip inner bytes

/-- The ports that `append_TCP_header` takes from the addresses. -/
def with_ports (details : tcp_details connection_details) : tcp_details connection_details :=
  { details with sport := details.ip.extract_ports.1, dport := details.ip.extract_ports.2 }

/-- A turn that writes `payload`. -/
structure Writes (details : tcp_details connection_details) (payload : List UInt8)
    (s : loop connection_details) : Prop where
  details : s.details = with_ports details
  data : s.cur_data.take s.to_write.toNat = payload
  size : s.to_write.toNat = payload.length

/-! ## When it holds -/

/-- The sizes of the inner headers. -/
def inner_sz (details : connection_details) : Nat :=
  (if details.ip_version = 6 then sizeof_ip6_hdr else sizeof_iphdr) +
    (if details.next_proto = TCP then sizeof_tcphdr else sizeof_udphdr)

/-- The addresses that the outer header has when it is summed. Outwards they are the ones that were
packed before, if they were. -/
def summed_ends (details : connection_details) (inwards : Bool) :
    Option (sockaddr_storage × sockaddr_storage) :=
  match details.tun_details with
  | none =>
    some (if inwards then (details.destination, details.source)
      else (details.source, details.destination))
  | some tun =>
    if inwards then
      some (pack_ss pton tun.dst.family tun.dst.str_host tun.dst.port,
        pack_ss pton tun.src.family tun.src.str_host tun.src.port)
    else tun.src.ss.bind fun src => tun.dst.ss.map fun dst => (src, dst)

/-- What the time to live and the addresses add to the sum of an IPv4 header. -/
def changed_total (ttl : UInt8) (src dst : List UInt8) : Nat :=
  256 * ttl.toNat + total src + total dst

/-- Both ends have an address of one family. -/
def Paired (details : connection_details) : Prop :=
  ∀ tun ∈ details.tun_details, tun.src.family = tun.dst.family ∧
    (tun.src.family = AF_INET ∨ tun.src.family = AF_INET6)

/-- The length fits into its field. -/
def Fits (details : connection_details) (n : Nat) : Prop :=
  (if over_v6 details then 0 else sizeof_iphdr) + sizeof_grehdr + inner_sz details + n < 65536

/-- The addresses and the time to live that were summed add the same as those that are emitted. -/
def Unchanged (details : connection_details) (inwards : Bool) : Prop :=
  over_v6 details = false → config.CALCULATE_CHECKSUMS →
    ∀ first ∈ summed_ends pton details inwards, ∀ last ∈ ends pton details,
      changed_total details.ttl (pcapng.u32 first.1.sin_addr) (pcapng.u32 first.2.sin_addr) % 65535 =
        changed_total details.tun_ttl last.1 last.2 % 65535

/-- When a block is consistent. -/
structure Sound (details : connection_details) (inwards : Bool) (n : Nat) : Prop where
  packed : (summed_ends pton details inwards).isSome
  paired : Paired details
  fits : Fits details n
  unchanged : Unchanged config pton details inwards

end

/-! ## Headers from what they are made of -/

variable {config : CONFIG} {pton : inet_pton} {details details' : connection_details} {n : Nat}
  {inwards : Bool}

/-- The IP id of the direction. -/
def ip_id (details : connection_details) (inwards : Bool) : UInt16 :=
  if inwards then details.ip_id_in else details.ip_id_out

def next_id (details : connection_details) (inwards : Bool) : connection_details :=
  if inwards then { details with ip_id_in := details.ip_id_in + 1 }
  else { details with ip_id_out := details.ip_id_out + 1 }

/-- An IPv4 header as `create_IPv4_header` sums it. -/
def v4_header (id : UInt16) (ttl : UInt8) (tot_len : UInt16) (protocol : UInt8)
    (ends : sockaddr_storage × sockaddr_storage) : iphdr :=
  { version := 4, ihl := 5, tot_len, id, frag_off := 0x4000, ttl, protocol,
    saddr := ends.1.sin_addr, daddr := ends.2.sin_addr }

def v6_header (ttl : UInt8) (ip6_plen : UInt16) (ip6_nxt : UInt8)
    (ends : sockaddr_storage × sockaddr_storage) : ip6_hdr :=
  { ip6_flow := 0x60000000, ip6_plen, ip6_nxt, ip6_hops := ttl, ip6_src := ends.1.words,
    ip6_dst := ends.2.words }

/-- The header with its checksum. -/
def iphdr.summed (h : iphdr) (config : CONFIG) : iphdr :=
  { h with check := iphdr_cksum config h.bytes }

theorem direction_odd (inwards : Bool) : direction inwards % 2 ≠ 0 ↔ inwards = true := by
  cases inwards <;> decide

theorem direction_tunnel_odd (inwards : Bool) :
    (direction inwards + 2) % 2 ≠ 0 ↔ inwards = true := by
  cases inwards <;> decide

theorem create_IPv4_header_eq {dir : Int} (hdir : dir % 2 ≠ 0 ↔ inwards = true) {len : UInt16}
    {proto : UInt8} (hlen : length_and_protocol details dir sizeof_iphdr n = .ok (len, proto)) :
    create_IPv4_header config pton {} details dir n =
      (endpoints pton (next_id details inwards) dir).map fun r =>
        ((v4_header (ip_id details inwards) r.2.ttl len proto r.1).summed config, r.2) := by
  have hids : (if dir % 2 ≠ 0 then
      (details.ip_id_in, { details with ip_id_in := details.ip_id_in + 1 })
      else (details.ip_id_out, { details with ip_id_out := details.ip_id_out + 1 })) =
        (ip_id details inwards, next_id details inwards) := by
    unfold ip_id next_id
    cases inwards with
    | true =>
      rw [if_pos (hdir.mpr rfl)]
      rfl
    | false =>
      rw [if_neg fun h => absurd (hdir.mp h) (by decide)]
      rfl
  unfold create_IPv4_header
  rw [hlen]
  simp only [bind, Except.bind, hids]
  cases endpoints pton (next_id details inwards) dir with
  | error e => rfl
  | ok r => rfl

theorem create_IPv6_header_eq {dir : Int} {len : UInt16} {proto : UInt8}
    (hlen : length_and_protocol details dir 0 n = .ok (len, proto)) :
    create_IPv6_header pton details dir n =
      (endpoints pton details dir).map fun r => (v6_header r.2.ttl len proto r.1, r.2) := by
  unfold create_IPv6_header
  rw [hlen]
  simp only [bind, Except.bind]
  cases endpoints pton details dir with
  | error e => rfl
  | ok r => rfl

/-! ## Lengths and addresses -/

/-- A connection that packets are made for. -/
structure Plain (details : connection_details) : Prop where
  version : details.ip_version = 4 ∨ details.ip_version = 6
  proto : details.next_proto = TCP ∨ details.next_proto = UDP

theorem l4_header_sz_eq (h : Plain details) :
    l4_header_sz details =
      .ok (if details.next_proto = TCP then sizeof_tcphdr else sizeof_udphdr) := by
  unfold l4_header_sz
  rcases h.proto with hp | hp
  · rw [if_pos (Or.inl hp), if_pos hp]
    rfl
  · rw [hp]
    rfl

theorem l3_header_sz_eq (h : Plain details) :
    l3_header_sz details =
      .ok (if details.ip_version = 6 then sizeof_ip6_hdr else sizeof_iphdr) := by
  unfold l3_header_sz
  rcases h.version with hv | hv <;> rw [hv] <;> rfl

theorem direction_le (inwards : Bool) : direction inwards ≤ 1 := by
  cases inwards <;> decide

theorem length_and_protocol_inner (h : Plain details) (below : Nat) :
    length_and_protocol details (direction inwards) below n =
      .ok (UInt16.ofNat (below + (if details.next_proto = TCP then sizeof_tcphdr
        else sizeof_udphdr) + n), details.next_proto.toUInt8) := by
  unfold length_and_protocol
  rw [l4_header_sz_eq h]
  simp only [bind, Except.bind, direction_le, if_true]
  rfl

/-- The length in a tunnel counts the GRE header and the inner headers. -/
theorem length_and_protocol_outer (h : Plain details) (htun : details.tun_proto = GRE)
    (below : Nat) :
    length_and_protocol details (direction inwards + 2) below n =
      .ok (UInt16.ofNat (below + sizeof_grehdr + inner_sz details + n), IPPROTO_GRE) := by
  have hdir : ¬ direction inwards + 2 ≤ 1 := by
    cases inwards <;> decide
  unfold length_and_protocol
  rw [l4_header_sz_eq h, l3_header_sz_eq h]
  simp only [bind, Except.bind, if_neg hdir, if_pos htun]
  unfold inner_sz
  rw [Nat.add_assoc (below + sizeof_grehdr)]
  rfl

/-- The sides of the connection, for an inner header. -/
def sides (details : connection_details) (inwards : Bool) : sockaddr_storage × sockaddr_storage :=
  if inwards then (details.destination, details.source) else (details.source, details.destination)

theorem endpoints_inner :
    endpoints pton details (direction inwards) = .ok (sides details inwards, details) := by
  cases inwards <;> rfl

/-- The tunnel as `endpoints` leaves it. -/
def packed_inwards (pton : inet_pton) (details : connection_details) (inwards : Bool) :
    connection_details :=
  { details with
    tun_details := details.tun_details.map fun tun => if inwards then tun.pack pton else tun }

theorem endpoints_outer :
    endpoints pton details (direction inwards + 2) =
      match summed_ends pton details inwards with
      | some p => .ok (p, packed_inwards pton details inwards)
      | none => .error .bad_optional_access := by
  obtain ⟨_, _, _, _, _, _, _, _, _, tun_details⟩ := details
  cases inwards with
  | true =>
    cases tun_details with
    | none => rfl
    | some tun => rfl
  | false =>
    cases tun_details with
    | none => rfl
    | some tun =>
      obtain ⟨⟨src, _, _, _⟩, ⟨dst, _, _, _⟩⟩ := tun
      cases src <;> cases dst <;> rfl

/-! ## The inner packet -/

/-- The IP header of the connection itself. -/
def inner_header (config : CONFIG) (details : connection_details) (inwards : Bool) (n : Nat) :
    List UInt8 :=
  let l4_sz := if details.next_proto = TCP then sizeof_tcphdr else sizeof_udphdr
  if details.ip_version = 6 then
    (v6_header details.ttl (UInt16.ofNat (0 + l4_sz + n)) details.next_proto.toUInt8
      (sides details inwards)).bytes
  else
    ((v4_header (ip_id details inwards) details.ttl (UInt16.ofNat (sizeof_iphdr + l4_sz + n))
      details.next_proto.toUInt8 (sides details inwards)).summed config).bytes

/-- The details behind the inner header. -/
def behind_inner (details : connection_details) (inwards : Bool) : connection_details :=
  if details.ip_version = 6 then details else next_id details inwards

theorem inner_header_length : (inner_header config details inwards n).length =
    if details.ip_version = 6 then sizeof_ip6_hdr else sizeof_iphdr := by
  unfold inner_header
  by_cases h6 : details.ip_version = 6
  · simp only [if_pos h6]
    rfl
  · simp only [if_neg h6]
    rfl

theorem next_id_plain : ∃ ip_id_in ip_id_out,
    next_id details inwards = { details with ip_id_in, ip_id_out } := by
  unfold next_id
  cases inwards with
  | true => exact ⟨_, _, rfl⟩
  | false => exact ⟨_, _, rfl⟩

/-- The tunnel comes between the creation of the inner header and its place in the buffer. -/
theorem append_IP_header_eq (h : Plain details) (out_buffer : List UInt8) :
    append_IP_header config pton out_buffer details (direction inwards) n =
      (encapsulate config pton out_buffer (behind_inner details inwards) (direction inwards) n).map
        fun r => (r.1 ++ inner_header config details inwards n, r.2) := by
  have hlen : ∀ below, length_and_protocol details (direction inwards) below n = _ :=
    length_and_protocol_inner h
  unfold append_IP_header
  rcases h.version with hv | hv
  · have h6 : ¬ details.ip_version = 6 := by
      rw [hv]
      decide
    rw [if_pos hv]
    unfold append_IPv4_header
    rw [create_IPv4_header_eq (direction_odd inwards) (hlen _), endpoints_inner]
    simp only [Except.map, bind, Except.bind, behind_inner, inner_header, if_neg h6]
    obtain ⟨ip_id_in, ip_id_out, hnext⟩ := @next_id_plain details inwards
    rw [hnext]
    cases encapsulate config pton out_buffer { details with ip_id_in, ip_id_out }
        (direction inwards) n with
    | error e => rfl
    | ok r => rfl
  · have h4 : ¬ details.ip_version = 4 := by
      rw [hv]
      decide
    rw [if_neg h4, if_pos hv]
    unfold append_IPv6_header
    rw [create_IPv6_header_eq (hlen _), endpoints_inner]
    simp only [Except.map, bind, Except.bind, behind_inner, inner_header, if_pos hv]
    cases encapsulate config pton out_buffer details (direction inwards) n with
    | error e => rfl
    | ok r => rfl

/-! ## The outer header -/

/-- The address that the outer header gets from an endpoint. -/
def v4_end (pton : inet_pton) (a : AddressInfo) : UInt32 :=
  (((a.pack pton).of_family AF_INET).map sockaddr_storage.sin_addr).getD 0

def v6_end (pton : inet_pton) (a : AddressInfo) : in6_addr :=
  (((a.pack pton).of_family AF_INET6).map sockaddr_storage.words).getD (0, 0, 0, 0)

/-- The outer header, for an IP id and the addresses with which it was summed. -/
def outer_header (config : CONFIG) (pton : inet_pton) (details : connection_details) (id : UInt16)
    (n : Nat) (first : sockaddr_storage × sockaddr_storage) : List UInt8 :=
  let length := fun below => UInt16.ofNat (below + sizeof_grehdr + inner_sz details + n)
  if over_v6 details then
    ip6_hdr.bytes { v6_header details.ttl (length 0) IPPROTO_GRE first with
      ip6_hops := details.tun_ttl
      ip6_src := (details.tun_details.map fun tun => v6_end pton tun.src).getD (0, 0, 0, 0)
      ip6_dst := (details.tun_details.map fun tun => v6_end pton tun.dst).getD (0, 0, 0, 0) }
  else
    iphdr.bytes { (v4_header id details.ttl (length sizeof_iphdr) IPPROTO_GRE first).summed config with
      ttl := details.tun_ttl
      saddr := (details.tun_details.map fun tun => v4_end pton tun.src).getD 0
      daddr := (details.tun_details.map fun tun => v4_end pton tun.dst).getD 0 }

/-- The details with a tunnel that is packed. -/
def packed (pton : inet_pton) (details : connection_details) : connection_details :=
  { details with tun_details := details.tun_details.map fun tun => tun.pack pton }

theorem summed_ends_next_id :
    summed_ends pton (next_id details inwards) inwards = summed_ends pton details inwards := by
  obtain ⟨ip_id_in, ip_id_out, hnext⟩ := @next_id_plain details inwards
  rw [hnext]
  rfl

theorem encapulate_gre_v4_eq (h : Plain details) (htun : details.tun_proto = GRE)
    (hv6 : over_v6 details = false) (out_buffer : List UInt8) :
    encapulate_gre_v4 config pton out_buffer details (direction inwards) n =
      match summed_ends pton details inwards with
      | some first =>
        .ok (append_GRE_header (out_buffer ++
          outer_header config pton details (ip_id details inwards) n first) details,
          packed pton (next_id details inwards))
      | none => .error .bad_optional_access := by
  unfold encapulate_gre_v4
  rw [create_IPv4_header_eq (direction_tunnel_odd inwards) (length_and_protocol_outer h htun _),
    endpoints_outer, summed_ends_next_id]
  cases summed_ends pton details inwards with
  | none => rfl
  | some first =>
    obtain ⟨ip_id_in, ip_id_out, hnext⟩ := @next_id_plain details inwards
    rw [hnext]
    unfold outer_header
    simp only [Except.map, bind, Except.bind, hv6, Bool.false_eq_true, if_false]
    obtain ⟨_, _, _, _, _, _, _, _, _, tun_details⟩ := details
    cases tun_details with
    | none => rfl
    | some tun => cases inwards <;> rfl

theorem encapsulate_gre_v6_eq (h : Plain details) (htun : details.tun_proto = GRE)
    (hv6 : over_v6 details = true) (id : UInt16) (out_buffer : List UInt8) :
    encapsulate_gre_v6 pton out_buffer details (direction inwards) n =
      match summed_ends pton details inwards with
      | some first =>
        .ok (append_GRE_header (out_buffer ++ outer_header config pton details id n first) details,
          packed pton details)
      | none => .error .bad_optional_access := by
  unfold encapsulate_gre_v6
  rw [create_IPv6_header_eq (length_and_protocol_outer h htun _), endpoints_outer]
  cases summed_ends pton details inwards with
  | none => rfl
  | some first =>
    unfold outer_header
    simp only [Except.map, bind, Except.bind, hv6, if_true]
    obtain ⟨_, _, _, _, _, _, _, _, _, tun_details⟩ := details
    cases tun_details with
    | none => rfl
    | some tun => cases inwards <;> rfl

/-- What the tunnel puts in front, and what is left of the details. -/
theorem encapsulate_eq (h : Plain details) (htun : details.tun_proto = GRE) :
    ∃ id ip_id_in ip_id_out, ∀ out_buffer,
      encapsulate config pton out_buffer details (direction inwards) n =
        match summed_ends pton details inwards with
        | some first =>
          .ok (out_buffer ++ outer_header config pton details id n first ++
            append_GRE_header [] details, packed pton { details with ip_id_in, ip_id_out })
        | none => .error .bad_optional_access := by
  have hgre : ∀ out_buffer, encapsulate config pton out_buffer details (direction inwards) n =
      if over_v6 details then encapsulate_gre_v6 pton out_buffer details (direction inwards) n
      else encapulate_gre_v4 config pton out_buffer details (direction inwards) n :=
    fun _ => if_pos htun
  by_cases hv6 : over_v6 details = true
  · refine ⟨0, details.ip_id_in, details.ip_id_out, fun out_buffer => ?_⟩
    rw [hgre, if_pos hv6]
    exact encapsulate_gre_v6_eq h htun hv6 0 out_buffer
  · obtain ⟨ip_id_in, ip_id_out, hnext⟩ := @next_id_plain details inwards
    refine ⟨ip_id details inwards, ip_id_in, ip_id_out, fun out_buffer => ?_⟩
    rw [hgre, if_neg hv6, ← hnext]
    exact encapulate_gre_v4_eq h htun (by simpa using hv6) out_buffer

/-! ## The whole packet -/

variable {payload : List UInt8} {tcpflags : UInt8}

/-- The segment or datagram. -/
def l4_part (config : CONFIG) (details : tcp_details connection_details) (in_ : Int)
    (payload : List UInt8) (tcpflags : UInt8) : List UInt8 :=
  if details.ip.next_proto = TCP then
    (append_TCP_header config [] details in_ payload tcpflags).1 ++ payload
  else append_UDP_header config [] details.ip in_ payload ++ payload

/-- The segment or datagram does not depend on the tunnel or the IP ids. -/
theorem packet_rest (details : tcp_details connection_details) (in_ : Int) (ip_header : List UInt8)
    (ip_id_in ip_id_out tun_proto : UInt16) (tun_details : Option SocketInfo) :
    let ip : connection_details :=
      { details.ip with ip_id_in, ip_id_out, tun_proto, tun_details }
    (if details.ip.next_proto = TCP then
      (append_TCP_header config ip_header { details with ip } in_ payload tcpflags).1 ++ payload
    else append_UDP_header config ip_header ip in_ payload ++ payload) =
      ip_header ++ l4_part config details in_ payload tcpflags := by
  intro ip
  unfold l4_part
  have htcp : (append_TCP_header config ip_header { details with ip } in_ payload tcpflags).1 =
      ip_header ++ (append_TCP_header config [] details in_ payload tcpflags).1 := by
    unfold append_TCP_header pcap.append_TCP_header
    by_cases hin : in_ ≠ 0
    · simp only [if_pos hin]
      rfl
    · simp only [if_neg hin]
      rfl
  have hudp : append_UDP_header config ip_header ip in_ payload =
      ip_header ++ append_UDP_header config [] details.ip in_ payload := rfl
  by_cases hproto : details.ip.next_proto = TCP
  · rw [if_pos hproto, if_pos hproto, htcp, List.append_assoc]
  · rw [if_neg hproto, if_neg hproto, hudp, List.append_assoc]

/-- The packet of a connection without a tunnel. -/
def inner_packet (config : CONFIG) (details : tcp_details connection_details) (inwards : Bool)
    (payload : List UInt8) (tcpflags : UInt8) : List UInt8 :=
  inner_header config details.ip inwards payload.length ++
    l4_part config details (direction inwards) payload tcpflags

theorem behind_inner_plain : ∃ ip_id_in ip_id_out,
    behind_inner details inwards = { details with ip_id_in, ip_id_out } := by
  unfold behind_inner
  split
  · exact ⟨details.ip_id_in, details.ip_id_out, rfl⟩
  · exact next_id_plain

theorem packet_untunnelled {details : tcp_details connection_details} (h : Plain details.ip) :
    packet config pton { details with ip := untunnelled details.ip } (direction inwards) payload
      tcpflags = .ok (inner_packet config details inwards payload tcpflags) := by
  obtain ⟨ip_id_in, ip_id_out, hbehind⟩ := @behind_inner_plain (untunnelled details.ip) inwards
  have happend := @append_IP_header_eq config pton (untunnelled details.ip) payload.length inwards
    ⟨h.version, h.proto⟩ []
  have hplain : (untunnelled details.ip).tun_proto ≠ GRE := by
    show (0 : UInt16) ≠ GRE
    decide
  have hrest := @packet_rest config payload tcpflags details (direction inwards)
    (inner_header config details.ip inwards payload.length) ip_id_in ip_id_out 0
    details.ip.tun_details
  rw [hbehind, encapsulate_plain (by exact hplain)] at happend
  unfold packet inner_packet
  rw [happend, ← hrest]
  by_cases hproto : details.ip.next_proto = TCP
  · have hproto' : (untunnelled details.ip).next_proto = TCP := hproto
    simp only [Except.map, bind, Except.bind, if_pos hproto, if_pos hproto']
    rfl
  · have hproto' : ¬ (untunnelled details.ip).next_proto = TCP := hproto
    simp only [Except.map, bind, Except.bind, if_neg hproto, if_neg hproto']
    rfl

/-- The tunnel's headers come in front of the same packet, unless they cannot be made. -/
theorem packet_tunnelled {details : tcp_details connection_details} (h : Plain details.ip)
    (htun : details.ip.tun_proto = GRE) :
    ∃ id, packet config pton details (direction inwards) payload tcpflags =
      match summed_ends pton details.ip inwards with
      | some first =>
        .ok (outer_header config pton details.ip id payload.length first ++
          append_GRE_header [] details.ip ++ inner_packet config details inwards payload tcpflags)
      | none => .error .bad_optional_access := by
  obtain ⟨in₁, out₁, hbehind⟩ := @behind_inner_plain details.ip inwards
  obtain ⟨id, in₂, out₂, henc⟩ := @encapsulate_eq config pton
    { details.ip with ip_id_in := in₁, ip_id_out := out₁ } payload.length inwards
    ⟨h.version, h.proto⟩ htun
  have happend := @append_IP_header_eq config pton details.ip payload.length inwards h []
  have hends : summed_ends pton { details.ip with ip_id_in := in₁, ip_id_out := out₁ } inwards =
      summed_ends pton details.ip inwards := rfl
  refine ⟨id, ?_⟩
  rw [hbehind, henc, hends] at happend
  cases hfirst : summed_ends pton details.ip inwards with
  | none =>
    rw [hfirst] at happend
    unfold packet
    rw [happend]
    rfl
  | some first =>
    rw [hfirst] at happend
    let headers := outer_header config pton details.ip id payload.length first ++
      append_GRE_header [] details.ip ++ inner_header config details.ip inwards payload.length
    have hheaders : append_IP_header config pton [] details.ip (direction inwards) payload.length =
        .ok (headers, { packed pton details.ip with ip_id_in := in₂, ip_id_out := out₂ }) := happend
    have hrest := @packet_rest config payload tcpflags details (direction inwards) headers in₂ out₂
      details.ip.tun_proto (packed pton details.ip).tun_details
    have hpacket : packet config pton details (direction inwards) payload tcpflags =
        .ok (headers ++ l4_part config details (direction inwards) payload tcpflags) := by
      unfold packet
      rw [hheaders, ← hrest]
      by_cases hproto : details.ip.next_proto = TCP
      · simp only [bind, Except.bind, if_pos hproto]
        rfl
      · simp only [bind, Except.bind, if_neg hproto]
        rfl
    rw [hpacket]
    exact congrArg Except.ok (List.append_assoc ..)

/-! ## What the outer header says -/

theorem iphdr_length (h : iphdr) : be16 (h.bytes.getD 2 0) (h.bytes.getD 3 0) = h.tot_len.toNat :=
  be16_u16 h.tot_len.toNat_lt

theorem ip6_hdr_length (h : ip6_hdr) :
    be16 (h.bytes.getD 4 0) (h.bytes.getD 5 0) = h.ip6_plen.toNat :=
  be16_u16 h.ip6_plen.toNat_lt

/-- The time to live and the addresses are summands of the header. -/
theorem iphdr_changed (h : iphdr) (ttl : UInt8) (saddr daddr : UInt32) :
    total { h with ttl, saddr, daddr }.bytes =
      total { h with ttl := 0, saddr := 0, daddr := 0 }.bytes +
        changed_total ttl (pcapng.u32 saddr) (pcapng.u32 daddr) := by
  let start := [UInt8.ofNat (h.version * 16 + h.ihl), h.tos] ++ u16 h.tot_len.toNat ++
    pcapng.u16 h.id ++ u16 h.frag_off.toNat
  have hsplit : ∀ ttl saddr daddr, iphdr.bytes { h with ttl, saddr, daddr } =
      start ++ [ttl, h.protocol] ++ u16 h.check.toNat ++ pcapng.u32 saddr ++ pcapng.u32 daddr := by
    intro ttl saddr daddr
    rfl
  have hstart : start.length = 8 := rfl
  have hsum : ∀ ttl saddr daddr, total (iphdr.bytes { h with ttl, saddr, daddr }) =
      total start + (256 * ttl.toNat + h.protocol.toNat) + h.check.toNat +
        total (pcapng.u32 saddr) + total (pcapng.u32 daddr) := by
    intro ttl saddr daddr
    rw [hsplit, total_append (by simp [hstart]), total_append (by simp [hstart]),
      total_append (by simp [hstart]), total_append (by simp [hstart]), total_pair,
      total_u16 h.check.toNat_lt]
    unfold be16
    rw [Nat.mul_comm 256]
  have hzero : total (pcapng.u32 0) = 0 := rfl
  rw [hsum, hsum, hzero]
  unfold changed_total
  have hzero8 : (0 : UInt8).toNat = 0 := rfl
  omega

/-- A header that was summed still sums up when what changed in it adds the same, modulo the word
with all ones. -/
theorem summed_changed (hon : config.CALCULATE_CHECKSUMS) {h : iphdr} (hcheck : h.check = 0)
    (hversion : 0 < total { h with ttl := 0, saddr := 0, daddr := 0 }.bytes)
    (ttl : UInt8) (saddr daddr : UInt32) :
    ones_sum { h.summed config with ttl, saddr, daddr }.bytes = 0xFFFF ↔
      changed_total h.ttl (pcapng.u32 h.saddr) (pcapng.u32 h.daddr) % 65535 =
        changed_total ttl (pcapng.u32 saddr) (pcapng.u32 daddr) % 65535 := by
  have hiff : ∀ l : List UInt8, ones_sum l = 0xFFFF ↔ total l ≠ 0 ∧ 65535 ∣ total l := by
    intro l
    exact (represents_sum words_le).eq_iff_dvd (by omega)
  have hsummed := (hiff _).mp (iphdr_sums hon hcheck)
  have hbefore := iphdr_changed (h.summed config) h.ttl h.saddr h.daddr
  have hafter := iphdr_changed (h.summed config) ttl saddr daddr
  have hbase := iphdr_total { h with ttl := 0, saddr := 0, daddr := 0 }
    (iphdr_cksum config h.bytes)
  have hsame : iphdr.bytes { h.summed config with ttl := h.ttl, saddr := h.saddr, daddr := h.daddr } =
      iphdr.bytes { h with check := iphdr_cksum config h.bytes } := rfl
  have hfields : iphdr.bytes { h.summed config with ttl := 0, saddr := 0, daddr := 0 } =
      iphdr.bytes { h with ttl := 0, saddr := 0, daddr := 0, check := iphdr_cksum config h.bytes } :=
    rfl
  have hclear : iphdr.bytes { h with ttl := 0, saddr := 0, daddr := 0, check := 0 } =
      iphdr.bytes { h with ttl := 0, saddr := 0, daddr := 0 } := by
    rw [← hcheck]
  rw [hsame, hfields] at hbefore
  rw [hfields] at hafter
  rw [hiff, hafter]
  dsimp only at hbase
  rw [hclear] at hbase
  rw [hbefore] at hsummed
  omega

/-! ## Each packet -/

variable {id : UInt16} {first : sockaddr_storage × sockaddr_storage}

theorem append_GRE_header_names :
    Names details.ip_version (append_GRE_header [] details) ∧
      (append_GRE_header [] details).length = sizeof_grehdr := by
  unfold Names append_GRE_header
  by_cases h6 : details.ip_version = 6
  · simp only [if_pos h6]
    exact ⟨rfl, rfl⟩
  · simp only [if_neg h6]
    exact ⟨rfl, rfl⟩

theorem l4_part_length (details : tcp_details connection_details) (in_ : Int)
    (payload : List UInt8) (tcpflags : UInt8) :
    (l4_part config details in_ payload tcpflags).length =
      (if details.ip.next_proto = TCP then sizeof_tcphdr else sizeof_udphdr) + payload.length := by
  unfold l4_part
  by_cases hproto : details.ip.next_proto = TCP
  · rw [if_pos hproto, if_pos hproto, List.length_append]
    rfl
  · rw [if_neg hproto, if_neg hproto, List.length_append]
    rfl

theorem inner_packet_length (details : tcp_details connection_details) :
    (inner_packet config details inwards payload tcpflags).length =
      inner_sz details.ip + payload.length := by
  unfold inner_packet inner_sz
  rw [List.length_append, inner_header_length, l4_part_length, Nat.add_assoc]

theorem outer_header_length : (outer_header config pton details id n first).length =
    if over_v6 details then sizeof_ip6_hdr else sizeof_iphdr := by
  unfold outer_header
  cases over_v6 details <;> rfl

/-! ## The tunnel's addresses -/

variable {src dst : List UInt8}

/-- The addresses of the outer header, over IPv4. -/
def v4_saddr (pton : inet_pton) (details : connection_details) : UInt32 :=
  (details.tun_details.map fun tun => v4_end pton tun.src).getD 0

def v4_daddr (pton : inet_pton) (details : connection_details) : UInt32 :=
  (details.tun_details.map fun tun => v4_end pton tun.dst).getD 0

theorem endpoint_v4 {a : AddressInfo} (h : a.family = AF_INET) :
    endpoint pton a = some (pcapng.u32 (v4_end pton a)) := by
  unfold endpoint v4_end AddressInfo.of_family AddressInfo.pack
  simp only [if_pos h]
  rfl

theorem endpoint_v6 {a : AddressInfo} (h : a.family = AF_INET6) :
    endpoint pton a = some (in6_addr.bytes (v6_end pton a)) := by
  have hno : ¬ a.family = AF_INET := by
    rw [h]
    decide
  unfold endpoint v6_end AddressInfo.of_family AddressInfo.pack
  simp only [if_neg hno, if_pos h]
  rfl

theorem endpoint_size {a : AddressInfo} (h : endpoint pton a = some src) :
    a.family = AF_INET ∧ src.length = 4 ∨ a.family = AF_INET6 ∧ src.length = 16 := by
  by_cases h4 : a.family = AF_INET
  · rw [endpoint_v4 h4] at h
    obtain rfl := Option.some.inj h
    exact Or.inl ⟨h4, rfl⟩
  · by_cases h6 : a.family = AF_INET6
    · rw [endpoint_v6 h6] at h
      obtain rfl := Option.some.inj h
      exact Or.inr ⟨h6, rfl⟩
    · unfold endpoint at h
      simp only [if_neg h4, if_neg h6] at h
      exact absurd h (by simp)

/-- Where the ends are paired, they are the addresses of the outer header. -/
theorem ends_paired (h : Paired details) : ends pton details = some
    (if over_v6 details then
      (in6_addr.bytes ((details.tun_details.map fun tun => v6_end pton tun.src).getD (0, 0, 0, 0)),
        in6_addr.bytes ((details.tun_details.map fun tun => v6_end pton tun.dst).getD (0, 0, 0, 0)))
    else (pcapng.u32 (v4_saddr pton details), pcapng.u32 (v4_daddr pton details))) := by
  unfold ends over_v6 v4_saddr v4_daddr
  cases htun : details.tun_details with
  | none => rfl
  | some tun =>
    obtain ⟨hsame, hfamily⟩ := h tun (by rw [htun]; rfl)
    rcases hfamily with h4 | h6
    · have hno : ¬ tun.src.family = AF_INET6 := by
        rw [h4]
        decide
      simp [endpoint_v4 h4, endpoint_v4 (hsame ▸ h4), hno]
    · simp [endpoint_v6 h6, endpoint_v6 (hsame ▸ h6), h6]

/-- The outer header has two addresses of one size, which tells that the ends are paired. -/
theorem paired_of_ends (hends : ends pton details = some (src, dst))
    (hsize : (src ++ dst).length = if over_v6 details then 32 else 8) : Paired details := by
  intro tun htun
  have htun : details.tun_details = some tun := htun
  unfold ends at hends
  unfold over_v6 at hsize
  rw [htun] at hends hsize
  obtain ⟨src', hsrc, hrest⟩ := Option.bind_eq_some_iff.mp hends
  obtain ⟨dst', hdst, heq⟩ := Option.map_eq_some_iff.mp hrest
  obtain ⟨rfl, rfl⟩ := Prod.mk.inj heq
  rw [List.length_append] at hsize
  rcases endpoint_size hsrc with ⟨hs, hslen⟩ | ⟨hs, hslen⟩ <;>
    rcases endpoint_size hdst with ⟨hd, hdlen⟩ | ⟨hd, hdlen⟩ <;>
    simp [hs, hd, hslen, hdlen, AF_INET, AF_INET6] at hsize ⊢

/-! ## When the outer header is right -/

theorem outer_v6_iff (hv6 : over_v6 details = true) (hends : ends pton details = some (src, dst)) :
    Outer config (over_v6 details) src dst (sizeof_grehdr + (inner_sz details + n))
        (outer_header config pton details id n first) ↔
      Paired details ∧ Fits details n := by
  let h : ip6_hdr := {
    v6_header details.ttl (UInt16.ofNat (0 + sizeof_grehdr + inner_sz details + n)) IPPROTO_GRE first
      with
    ip6_hops := details.tun_ttl
    ip6_src := (details.tun_details.map fun tun => v6_end pton tun.src).getD (0, 0, 0, 0)
    ip6_dst := (details.tun_details.map fun tun => v6_end pton tun.dst).getD (0, 0, 0, 0) }
  have hheader : outer_header config pton details id n first = h.bytes := if_pos hv6
  have hplen : h.ip6_plen.toNat = (0 + sizeof_grehdr + inner_sz details + n) % 65536 :=
    UInt16.toNat_ofNat' ..
  have hlength := ip6_hdr_length h
  rw [hheader, hv6]
  unfold Fits
  rw [hv6, if_pos rfl]
  constructor
  · intro ho
    have hsize : (src ++ dst).length = if over_v6 details then 32 else 8 := by
      rw [← ho.addresses, hv6]
      rfl
    have hrest : be16 (h.bytes.getD 4 0) (h.bytes.getD 5 0) = _ := ho.length
    exact ⟨paired_of_ends hends hsize, by omega⟩
  · rintro ⟨hpaired, hfits⟩
    have hpair := (ends_paired hpaired).symm.trans hends
    rw [hv6, if_pos rfl] at hpair
    obtain ⟨rfl, rfl⟩ := Prod.mk.inj (Option.some.inj hpair)
    have hversion : h.bytes.getD 0 0 = (u32 (0x60000000 : UInt32).toNat).getD 0 0 := rfl
    refine ⟨rfl, ?_, ?_, rfl, rfl, fun hno => absurd hno (by decide)⟩
    · rw [hversion]
      decide
    · show be16 (h.bytes.getD 4 0) (h.bytes.getD 5 0) = _
      omega

theorem outer_v4_iff (hv6 : over_v6 details = false)
    (hends : ends pton details = some (src, dst)) :
    Outer config (over_v6 details) src dst (sizeof_grehdr + (inner_sz details + n))
        (outer_header config pton details id n first) ↔
      Paired details ∧ Fits details n ∧ (config.CALCULATE_CHECKSUMS →
        changed_total details.ttl (pcapng.u32 first.1.sin_addr) (pcapng.u32 first.2.sin_addr) % 65535 =
          changed_total details.tun_ttl src dst % 65535) := by
  let h := v4_header id details.ttl
    (UInt16.ofNat (sizeof_iphdr + sizeof_grehdr + inner_sz details + n)) IPPROTO_GRE first
  have hheader : outer_header config pton details id n first =
      iphdr.bytes { h.summed config with
        ttl := details.tun_ttl, saddr := v4_saddr pton details, daddr := v4_daddr pton details } := by
    unfold outer_header
    rw [hv6]
    rfl
  have htot : h.tot_len.toNat = (sizeof_iphdr + sizeof_grehdr + inner_sz details + n) % 65536 :=
    UInt16.toNat_ofNat' ..
  have hlength : be16 ((outer_header config pton details id n first).getD 2 0)
      ((outer_header config pton details id n first).getD 3 0) = h.tot_len.toNat := by
    rw [hheader]
    exact iphdr_length _
  have hpositive : 0 < total (iphdr.bytes { h with ttl := 0, saddr := 0, daddr := 0 }) := by
    have hfront : iphdr.bytes { h with ttl := 0, saddr := 0, daddr := 0 } =
        [0x45, 0] ++ (iphdr.bytes { h with ttl := 0, saddr := 0, daddr := 0 }).drop 2 := rfl
    have hpair : 0 < total [0x45, 0] := by decide
    rw [hfront, total_append rfl]
    exact Nat.lt_of_lt_of_le hpair (Nat.le_add_right _ _)
  have hversion : (outer_header config pton details id n first).getD 0 0 = 0x45 := by
    rw [hheader]
    rfl
  have hsum : config.CALCULATE_CHECKSUMS →
      (ones_sum (outer_header config pton details id n first) = 0xFFFF ↔
        changed_total details.ttl (pcapng.u32 first.1.sin_addr) (pcapng.u32 first.2.sin_addr) %
            65535 =
          changed_total details.tun_ttl (pcapng.u32 (v4_saddr pton details))
            (pcapng.u32 (v4_daddr pton details)) % 65535) := by
    intro hon
    rw [hheader]
    exact summed_changed hon rfl hpositive details.tun_ttl _ _
  rw [hv6]
  unfold Fits
  rw [hv6, if_neg (by decide)]
  constructor
  · intro ho
    have hsize : (src ++ dst).length = if over_v6 details then 32 else 8 := by
      rw [← ho.addresses, hheader, hv6]
      rfl
    have hpaired := paired_of_ends hends hsize
    have hpair := (ends_paired hpaired).symm.trans hends
    rw [hv6, if_neg (by decide)] at hpair
    obtain ⟨rfl, rfl⟩ := Prod.mk.inj (Option.some.inj hpair)
    have hrest : be16 _ _ = sizeof_iphdr + _ := ho.length
    refine ⟨hpaired, by omega, fun hon => (hsum hon).mp (ho.sum rfl hon)⟩
  · rintro ⟨hpaired, hfits, hsame⟩
    have hpair := (ends_paired hpaired).symm.trans hends
    rw [hv6, if_neg (by decide)] at hpair
    obtain ⟨rfl, rfl⟩ := Prod.mk.inj (Option.some.inj hpair)
    refine ⟨?_, ?_, ?_, ?_, ?_, fun _ hon => (hsum hon).mpr (hsame hon)⟩
    · rw [hheader]
      rfl
    · rw [hversion]
      decide
    · show be16 _ _ = sizeof_iphdr + _
      omega
    · rw [hheader]
      rfl
    · rw [hheader]
      rfl

/-! ## What is in front of a packet -/

theorem append_IP_header_front (h : Plain details) (htun : details.tun_proto = GRE)
    (out_buffer : List UInt8) :
    append_IP_header config pton out_buffer details (direction inwards) n =
      (append_IP_header config pton [] details (direction inwards) n).map
        fun r => (out_buffer ++ r.1, r.2) := by
  obtain ⟨in₁, out₁, hbehind⟩ := @behind_inner_plain details inwards
  obtain ⟨id, in₂, out₂, henc⟩ := @encapsulate_eq config pton
    { details with ip_id_in := in₁, ip_id_out := out₁ } n inwards ⟨h.version, h.proto⟩ htun
  rw [append_IP_header_eq h, append_IP_header_eq h, hbehind, henc, henc]
  cases summed_ends pton { details with ip_id_in := in₁, ip_id_out := out₁ } inwards with
  | none => rfl
  | some first => simp only [Except.map, List.append_assoc, List.nil_append]

theorem append_TCP_header_front (front ip_header : List UInt8)
    (details : tcp_details connection_details) (in_ : Int) :
    (append_TCP_header config (front ++ ip_header) details in_ payload tcpflags).1 =
      front ++ (append_TCP_header config ip_header details in_ payload tcpflags).1 := by
  unfold append_TCP_header
  exact List.append_assoc ..

theorem append_UDP_header_front (front ip_header : List UInt8) (details : connection_details)
    (in_ : Int) :
    append_UDP_header config (front ++ ip_header) details in_ payload =
      front ++ append_UDP_header config ip_header details in_ payload := by
  unfold append_UDP_header
  exact List.append_assoc ..

theorem append_IP_header_ports (h : Plain details) (htun : details.tun_proto = GRE)
    {out_buffer : List UInt8} {r : List UInt8 × connection_details}
    (hr : append_IP_header config pton out_buffer details (direction inwards) n = .ok r) :
    r.2.extract_ports = details.extract_ports := by
  obtain ⟨in₁, out₁, hbehind⟩ := @behind_inner_plain details inwards
  obtain ⟨id, in₂, out₂, henc⟩ := @encapsulate_eq config pton
    { details with ip_id_in := in₁, ip_id_out := out₁ } n inwards ⟨h.version, h.proto⟩ htun
  rw [append_IP_header_eq h, hbehind, henc] at hr
  cases hends : summed_ends pton { details with ip_id_in := in₁, ip_id_out := out₁ } inwards with
  | none =>
    rw [hends] at hr
    exact absurd hr (by simp [Except.map])
  | some first =>
    rw [hends] at hr
    obtain rfl := Except.ok.inj hr
    rfl

/-- A packet behind what is in front. -/
theorem packet_front {details : tcp_details connection_details} (h : Plain details.ip)
    (htun : details.ip.tun_proto = GRE) (front : List UInt8) :
    (append_IP_header config pton front details.ip (direction inwards) payload.length).map
        (fun r => if details.ip.next_proto = TCP then
          (append_TCP_header config r.1 { details with ip := r.2 } (direction inwards) payload
            tcpflags).1 ++ payload
        else append_UDP_header config r.1 r.2 (direction inwards) payload ++ payload) =
      (packet config pton details (direction inwards) payload tcpflags).map
        fun bytes => front ++ bytes := by
  rw [append_IP_header_front h htun]
  unfold packet
  cases append_IP_header config pton [] details.ip (direction inwards) payload.length with
  | error e => rfl
  | ok r =>
    by_cases hproto : details.ip.next_proto = TCP
    · simp only [Except.map, bind, Except.bind, pure, Except.pure, if_pos hproto]
      rw [append_TCP_header_front, List.append_assoc]
    · simp only [Except.map, bind, Except.bind, pure, Except.pure, if_neg hproto]
      rw [append_UDP_header_front, List.append_assoc]

variable {now : UInt32 × UInt32} {out_buffer : List UInt8}

/-- The headers of the record and the link in a pcap file. -/
def record_header (now : UInt32 × UInt32) (details : connection_details) (n : Nat) : List UInt8 :=
  append_PCAP_header now [] details n

def link_header (details : connection_details) (inwards : Bool) : List UInt8 :=
  append_LCC_header [] details (direction inwards)

theorem pcap_frame_eq {details : tcp_details connection_details} (h : Plain details.ip)
    (htun : details.ip.tun_proto = GRE) :
    pcap_frame config pton now out_buffer details (direction inwards) payload tcpflags =
      (packet config pton details (direction inwards) payload tcpflags).map fun bytes =>
        out_buffer ++ record_header now details.ip payload.length ++
          link_header details.ip inwards ++ bytes := by
  obtain ⟨hsize, hnat, htake⟩ := size_taken payload
  have hfront := @packet_front config pton inwards payload tcpflags details h htun
    (out_buffer ++ record_header now details.ip payload.length ++ link_header details.ip inwards)
  rw [← hfront]
  unfold pcap_frame append_TCP_frame append_UDP_frame
  rw [if_neg hsize, if_neg hsize, hnat, htake]
  dsimp only
  have hlink : append_LCC_header (append_PCAP_header now out_buffer details.ip payload.length)
      details.ip (direction inwards) = out_buffer ++
        record_header now details.ip payload.length ++ link_header details.ip inwards := rfl
  rw [hlink]
  cases append_IP_header config pton (out_buffer ++ record_header now details.ip payload.length ++
      link_header details.ip inwards) details.ip (direction inwards) payload.length with
  | error e =>
    split
    · rfl
    · rfl
  | ok r =>
    by_cases hproto : details.ip.next_proto = TCP
    · simp only [if_pos hproto]
      rfl
    · simp only [if_neg hproto]
      rfl

theorem pcapng_packet_eq {details : tcp_details connection_details} (h : Plain details.ip)
    (htun : details.ip.tun_proto = GRE) {s : loop connection_details}
    (hs : Writes details payload s) (data_size : Int) :
    pcapng_packet config pton now s data_size (direction inwards) tcpflags =
      (packet config pton details (direction inwards) payload tcpflags).map fun bytes =>
        link_header details.ip inwards ++ bytes := by
  obtain ⟨hsize, hnat, htake⟩ := size_taken payload
  have hfront := @packet_front config pton inwards payload tcpflags details h htun
    (link_header details.ip inwards)
  have hip' : s.details.ip = details.ip := by
    rw [hs.details]
    rfl
  have hlink : append_LCC_header [] details.ip (direction inwards) =
      link_header details.ip inwards := rfl
  rw [← hfront]
  unfold pcapng_packet
  dsimp only
  rw [hs.data, hs.size, hip', hlink]
  unfold append_UDP
  rw [if_neg hsize, hnat, htake]
  dsimp only
  rw [hlink]
  cases hip : append_IP_header config pton (link_header details.ip inwards) details.ip
      (direction inwards) payload.length with
  | error e =>
    split
    · rfl
    · rfl
  | ok r =>
    by_cases hproto : details.ip.next_proto = TCP
    · have hlower : lower_headers config pton details.ip (direction inwards) payload.length = r := by
        unfold lower_headers
        rw [hlink, hip]
      have hports : with_ports { details with ip := r.2 } =
          { with_ports details with ip := r.2 } := by
        unfold with_ports
        rw [append_IP_header_ports h htun hip]
      simp only [if_pos hproto]
      unfold turn
      dsimp only
      rw [hs.data, hip', hs.size, hlower, append_packet_data, hs.details]
      dsimp only
      rw [← hports]
      rfl
    · simp only [if_neg hproto, Except.map, bind, Except.bind, pure, Except.pure]
      rw [append_packet_data]
      rfl

theorem outer_iff (hfirst : summed_ends pton details inwards = some first)
    (hends : ends pton details = some (src, dst)) :
    Outer config (over_v6 details) src dst (sizeof_grehdr + (inner_sz details + n))
        (outer_header config pton details id n first) ↔
      Paired details ∧ Fits details n ∧ Unchanged config pton details inwards := by
  cases hv6 : over_v6 details with
  | true =>
    have hiff := @outer_v6_iff config pton details n id first src dst hv6 hends
    rw [hv6] at hiff
    rw [hiff]
    refine and_congr_right fun _ => (and_iff_left ?_).symm
    exact fun hno => absurd (hno.symm.trans hv6) (by decide)
  | false =>
    have hiff := @outer_v4_iff config pton details n id first src dst hv6 hends
    rw [hv6] at hiff
    rw [hiff]
    refine and_congr_right fun _ => and_congr_right fun _ => ?_
    unfold Unchanged
    rw [hfirst, hends]
    simp [hv6]

/-! ## When a capture is consistent -/

/-- The sizes of the headers of the tunnel, and of the packet in it. -/
def tunnel_size (details : connection_details) (n : Nat) : Nat :=
  (if over_v6 details then sizeof_ip6_hdr else sizeof_iphdr) + sizeof_grehdr + (inner_sz details + n)

theorem tunnelled_iff {inner : List UInt8} (hinner : inner.length = inner_sz details + n)
    (hfirst : summed_ends pton details inwards = some first) :
    Tunnelled config pton details inner
        (outer_header config pton details id n first ++ append_GRE_header [] details ++ inner) ↔
      Paired details ∧ Fits details n ∧ Unchanged config pton details inwards := by
  obtain ⟨hnames, hgre⟩ := @append_GRE_header_names details
  constructor
  · rintro ⟨outer, gre, src, dst, hends, hbytes, houter, hnames'⟩
    have hsize : (outer_header config pton details id n first).length = outer.length :=
      outer_header_length.trans houter.size.symm
    have hsame : gre = append_GRE_header [] details := hnames'.trans hnames.symm
    rw [hsame, List.append_assoc, List.append_assoc] at hbytes
    have heq := (List.append_inj hbytes hsize).1
    rw [hsame, hgre, hinner, ← heq] at houter
    exact (outer_iff hfirst hends).mp houter
  · rintro ⟨hpaired, hfits, hunchanged⟩
    have hends := @ends_paired pton details hpaired
    refine ⟨_, _, _, _, hends, rfl, ?_, hnames⟩
    rw [hgre, hinner]
    exact (outer_iff hfirst hends).mpr ⟨hpaired, hfits, hunchanged⟩

/-- A capture puts the packet behind `front`, whose size tells where the packet starts. -/
theorem consistent_iff {details : tcp_details connection_details} (h : Plain details.ip)
    (htun : details.ip.tun_proto = GRE) {Front : List UInt8 → Nat → Prop} {front : List UInt8}
    (hfront : ∀ front' size, Front front' size → front'.length = front.length) :
    Consistent config pton Front details (direction inwards) payload tcpflags
        ((packet config pton details (direction inwards) payload tcpflags).map
          fun bytes => front ++ bytes) ↔
      Sound config pton details.ip inwards payload.length ∧
        Front front (tunnel_size details.ip payload.length) := by
  have hinner := @packet_untunnelled config pton inwards payload tcpflags details h
  have hlen := @inner_packet_length config inwards payload tcpflags details
  obtain ⟨id, htunnelled⟩ := @packet_tunnelled config pton inwards payload tcpflags details h htun
  rw [htunnelled]
  constructor
  · rintro ⟨inner, front', bytes, hinner', hemitted, hfront', hbytes⟩
    obtain rfl := Except.ok.inj (hinner.symm.trans hinner')
    cases hfirst : summed_ends pton details.ip inwards with
    | none =>
      rw [hfirst] at hemitted
      exact absurd hemitted (by simp [Except.map])
    | some first =>
      rw [hfirst] at hemitted
      obtain ⟨rfl, rfl⟩ := List.append_inj (Except.ok.inj hemitted)
        (hfront front' bytes.length hfront').symm
      obtain ⟨hpaired, hfits, hunchanged⟩ := (tunnelled_iff hlen hfirst).mp hbytes
      refine ⟨⟨by rw [hfirst]; rfl, hpaired, hfits, hunchanged⟩, ?_⟩
      rw [List.length_append, List.length_append, outer_header_length,
        append_GRE_header_names.2, hlen] at hfront'
      exact hfront'
  · rintro ⟨hsound, hsize⟩
    obtain ⟨first, hfirst⟩ := Option.isSome_iff_exists.mp hsound.packed
    rw [hfirst]
    refine ⟨_, front, _, hinner, rfl, ?_, ?_⟩
    · rw [List.length_append, List.length_append, outer_header_length,
        append_GRE_header_names.2, hlen]
      exact hsize
    · exact (tunnelled_iff hlen hfirst).mpr ⟨hsound.paired, hsound.fits, hsound.unchanged⟩

theorem u32_inj {a b : UInt32} (h : pcapng.u32 a = pcapng.u32 b) : a = b := by
  have hread : ∀ a : UInt32, lib.wire.get32 (pcapng.u32 a ++ []) = some (a.toNat, []) := by
    intro a
    have hreads := lib.wire.reads_get32 a.toNat []
    rw [Nat.mod_eq_of_lt a.toNat_lt] at hreads
    exact hreads
  have hsame := (hread a).symm.trans (h ▸ hread b)
  simpa [UInt32.toNat_inj] using hsame

theorem record_header_caplen (h : Plain details) :
    ((record_header now details n).drop 8).take 4 =
      pcapng.u32 (UInt32.ofNat (sizeof_linux_cooked_capture + inner_sz details + n)) := by
  unfold record_header append_PCAP_header inner_sz
  rcases h.version with hv | hv <;> rcases h.proto with hp | hp <;> rw [hv, hp] <;> rfl

/-- `caplen` does not count the headers of the tunnel. -/
theorem record_short (h : Plain details) (out_buffer : List UInt8) :
    ¬ Record out_buffer
      (out_buffer ++ record_header now details n ++ link_header details inwards)
      (tunnel_size details n) := by
  rintro ⟨record, link, hsplit, hrecord, hlink, hcaplen⟩
  rw [List.append_assoc, List.append_assoc] at hsplit
  have hsame : record_header now details n = record :=
    (List.append_inj (List.append_cancel_left hsplit) (hrecord ▸ rfl)).1
  rw [← hsame, record_header_caplen h, hlink] at hcaplen
  have hcount := congrArg UInt32.toNat (u32_inj hcaplen)
  rw [UInt32.toNat_ofNat', UInt32.toNat_ofNat'] at hcount
  have hgre : sizeof_grehdr = 4 := rfl
  have houter : (if over_v6 details then sizeof_ip6_hdr else sizeof_iphdr) ≤ 40 := by
    cases over_v6 details <;> decide
  unfold tunnel_size at hcount
  generalize (if over_v6 details then sizeof_ip6_hdr else sizeof_iphdr) = outer at hcount houter
  omega

/-! ## Each capture -/

/-- In a file of frames no packet in a tunnel is consistent. A block is, just when the ends of the
tunnel can be taken and are of one family, the length fits, and the outer header of IPv4 adds what
was summed. -/
theorem gre_consistent_iff (config : CONFIG) (pton : inet_pton)
    (details : tcp_details connection_details) (h : Plain details.ip)
    (htun : details.ip.tun_proto = GRE) (inwards : Bool) (payload : List UInt8)
    (tcpflags : UInt8) (now : UInt32 × UInt32) :
    (∀ out_buffer, ¬ Consistent config pton (Record out_buffer) details (direction inwards) payload
      tcpflags (pcap_frame config pton now out_buffer details (direction inwards) payload tcpflags)) ∧
    ∀ s data_size, Writes details payload s →
      (Consistent config pton Block details (direction inwards) payload tcpflags
          (pcapng_packet config pton now s data_size (direction inwards) tcpflags) ↔
        Sound config pton details.ip inwards payload.length) := by
  constructor
  · intro out_buffer hconsistent
    rw [pcap_frame_eq h htun, consistent_iff h htun] at hconsistent
    · exact record_short h out_buffer hconsistent.2
    · rintro front' size ⟨record, link, rfl, hrecord, hlink, -⟩
      rw [List.length_append, List.length_append, hrecord, hlink, List.length_append,
        List.length_append]
      rfl
  · intro s data_size hs
    rw [pcapng_packet_eq h htun hs, consistent_iff h htun]
    · exact and_iff_left rfl
    · intro front' size hblock
      exact hblock

/-- A datagram of IPv6 that goes out in a tunnel over IPv6, whose ends are packed. -/
theorem gre_consistent_iff_v6 :
    let pton : inet_pton := {
      v4 := fun _ => none
      v6 := fun host => if host = "fe11::11".toList then some (0x11fe, 0, 0, 0x11000000)
        else if host = "fe11::88".toList then some (0x11fe, 0, 0, 0x88000000) else none }
    let tun : SocketInfo := {
      src := { family := AF_INET6, str_host := "fe11::11".toList }
      dst := { family := AF_INET6, str_host := "fe11::88".toList } }
    let details : tcp_details connection_details := {
      sport := 0, dport := 0, seq_in := 0, seq_out := 0, tcp_lastack_in := 0, tcp_lastack_out := 0
      ip := {
        source := { ss_family := AF_INET6, port := 0x3930, words := (0x01fe, 0, 0, 0x01000000) }
        destination := { ss_family := AF_INET6, port := 0x5000, words := (0x01fe, 0, 0, 0x02000000) }
        ip_version := 6, next_proto := UDP, tun_proto := GRE, tun_ttl := 3
        tun_details := some (tun.pack pton) } }
    Consistent { CALCULATE_CHECKSUMS := true } pton Block details (direction false) [0x61, 0x62, 0x63] 0
      (pcapng_packet { CALCULATE_CHECKSUMS := true } pton (5, 0)
        { epb := {}, out_buffer := [], details := with_ports details, data_written := 0
          cur_data := [0x61, 0x62, 0x63], to_write := 3, frames := [] } 3 (direction false) 0) := by
  intro pton tun details
  have hsound : Sound { CALCULATE_CHECKSUMS := true } pton details.ip false 3 := by
    refine ⟨rfl, ?_, ?_, fun hv4 => absurd hv4 (by decide)⟩
    · intro packed hpacked
      obtain rfl : tun.pack pton = packed := Option.some.inj hpacked
      have hsrc : (tun.pack pton).src.family = AF_INET6 := rfl
      have hdst : (tun.pack pton).dst.family = AF_INET6 := rfl
      exact ⟨hsrc.trans hdst.symm, Or.inr hsrc⟩
    · unfold Fits
      decide
  exact ((gre_consistent_iff { CALCULATE_CHECKSUMS := true } pton details ⟨by decide, by decide⟩ rfl
    false [0x61, 0x62, 0x63] 0 (5, 0)).2 _ 3 ⟨rfl, rfl, rfl⟩).mpr hsound

/-- A datagram of IPv6 that goes out in a tunnel over IPv4, whose ends are not packed yet. Nothing
is emitted. -/
theorem gre_not_consistent :
    let pton : inet_pton := {
      v4 := fun host => if host = "172.30.1.1".toList then some 0x01011eac
        else if host = "172.30.255.1".toList then some 0x01ff1eac else none
      v6 := fun _ => none }
    let details : tcp_details connection_details := {
      sport := 0, dport := 0, seq_in := 0, seq_out := 0, tcp_lastack_in := 0, tcp_lastack_out := 0
      ip := {
        source := { ss_family := AF_INET6, port := 0x3930, words := (0x01fe, 0, 0, 0x01000000) }
        destination := { ss_family := AF_INET6, port := 0x5000, words := (0x01fe, 0, 0, 0x02000000) }
        ip_version := 6, next_proto := UDP, tun_proto := GRE, tun_ttl := 3
        tun_details := some {
          src := { str_host := "172.30.1.1".toList }
          dst := { str_host := "172.30.255.1".toList } } } }
    ¬ Consistent { CALCULATE_CHECKSUMS := true } pton Block details (direction false) [0x61, 0x62, 0x63] 0
      (pcapng_packet { CALCULATE_CHECKSUMS := true } pton (5, 0)
        { epb := {}, out_buffer := [], details := with_ports details, data_written := 0
          cur_data := [0x61, 0x62, 0x63], to_write := 3, frames := [] } 3 (direction false) 0) := by
  intro pton details
  have hthrows : pcapng_packet { CALCULATE_CHECKSUMS := true } pton (5, 0)
      { epb := {}, out_buffer := [], details := with_ports details, data_written := 0
        cur_data := [0x61, 0x62, 0x63], to_write := 3, frames := [] } 3 (direction false) 0 =
        .error .bad_optional_access := by
    rfl
  rintro ⟨inner, front, bytes, -, hemitted, -⟩
  rw [hthrows] at hemitted
  cases hemitted

end socle.pcap.frames
