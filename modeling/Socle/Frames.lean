-- The headers of captured frames (traflog/pcapapi.hpp and pcapapi.cpp): record,
-- Linux cooked capture, IP, GRE, TCP and UDP, with their checksums. Where the
-- code stores htons or htonl of a number, a field here holds the number.
import Socle.Lib.OnesSum
import Socle.TcpSegments
import Socle.UdpSessions

namespace socle.pcap.frames

open lib.bytes lib.ones
open socle.udp (sockaddr_storage text AF_INET AF_INET6 ntohs)

/-! ## Data -/

structure CONFIG where
  CALCULATE_CHECKSUMS : Bool := false

/-- What the functions throw: `std::invalid_argument`, and `std::bad_optional_access`. -/
inductive error where
  | invalid_argument (what : String)
  | bad_optional_access
deriving DecidableEq

/-- `in6_addr`, as four words of the memory. -/
abbrev in6_addr := UInt32 × UInt32 × UInt32 × UInt32

def in6_addr.bytes (a : in6_addr) : List UInt8 :=
  pcapng.u32 a.1 ++ pcapng.u32 a.2.1 ++ pcapng.u32 a.2.2.1 ++ pcapng.u32 a.2.2.2

/-- `inet_pton`, which is left to the C library. It gives what it stores, or `none` for a text that
is no address. -/
structure inet_pton where
  v4 : text → Option UInt32
  v6 : text → Option in6_addr

/-- `AddressInfo`, whose `ss` may be empty. -/
structure AddressInfo where
  ss : Option sockaddr_storage := none
  family : Nat := AF_INET
  str_host : text := []
  port : UInt16 := 0

def pack_ss (pton : inet_pton) (family : Nat) (host : text) (port : UInt16) : sockaddr_storage :=
  if family = AF_INET6 then
    { ss_family := AF_INET6, port := ntohs port, words := (pton.v6 host).getD (0, 0, 0, 0) }
  else { ss_family := AF_INET, port := ntohs port, word := (pton.v4 host).getD 0 }

namespace AddressInfo

def pack (pton : inet_pton) (a : AddressInfo) : AddressInfo :=
  { a with ss := some (pack_ss pton a.family a.str_host a.port) }

/-- `as_v4` and `as_v6`, which take the value of `ss`. -/
def value (a : AddressInfo) : Except error sockaddr_storage :=
  match a.ss with
  | some ss => pure ss
  | none => throw .bad_optional_access

/-- The address, if it is there and `family` is the one that is asked for. -/
def of_family (a : AddressInfo) (family : Nat) : Option sockaddr_storage :=
  if a.family = family then a.ss else none

end AddressInfo

structure SocketInfo where
  src : AddressInfo := {}
  dst : AddressInfo := {}

def SocketInfo.pack (pton : inet_pton) (s : SocketInfo) : SocketInfo :=
  { src := s.src.pack pton, dst := s.dst.pack pton }

/-- `connection_details::TCP`, and for `UDP` and `GRE` the same. -/
def TCP : UInt16 := 6
def UDP : UInt16 := 17
def GRE : UInt16 := 47

/-- `connection_details`. A null `tun_details` is `none`. -/
structure connection_details where
  source : sockaddr_storage
  destination : sockaddr_storage
  ip_id_in : UInt16 := 0
  ip_id_out : UInt16 := 0
  ip_version : UInt8 := 4
  next_proto : UInt16 := TCP
  ttl : UInt8 := 32
  tun_proto : UInt16 := 0
  tun_ttl : UInt8 := 1
  tun_details : Option SocketInfo := none

namespace connection_details

/-- `extract_ports`: the source port and the destination port. -/
def extract_ports (details : connection_details) : UInt16 × UInt16 :=
  if details.ip_version = 4 ∨ details.ip_version = 6 then
    (ntohs details.source.port, ntohs details.destination.port)
  else (0, 0)

end connection_details

/-! ## Checksums -/

/-- The mask asks whether the sum has more than 16 bits. -/
theorem mask_iff (sum : UInt32) : sum &&& (0xFFFF0000 : UInt32) ≠ 0 ↔ 65535 < sum.toNat := by
  have hlt := sum.toNat_lt
  have hand : (sum &&& (0xFFFF0000 : UInt32)).toNat = sum.toNat &&& 0xFFFF0000 :=
    UInt32.toNat_and ..
  have hhigh : (sum.toNat &&& 0xFFFF0000) / 65536 = sum.toNat / 65536 := by
    have hshift := @Nat.shiftRight_and_distrib 16 sum.toNat 0xFFFF0000
    have hmask := Nat.and_two_pow_sub_one_eq_mod (sum.toNat / 65536) 16
    simp only [Nat.shiftRight_eq_div_pow, Nat.reducePow, Nat.reduceDiv] at hshift
    simp only [Nat.reducePow, Nat.reduceSub] at hmask
    omega
  have hlow : (sum.toNat &&& 0xFFFF0000) % 65536 = 0 := by
    have hmod := @Nat.and_mod_two_pow sum.toNat 0xFFFF0000 16
    simpa using hmod
  have hzero : sum &&& (0xFFFF0000 : UInt32) = 0 ↔ (sum &&& (0xFFFF0000 : UInt32)).toNat = 0 := by
    rw [← UInt32.toNat_inj]
    rfl
  rw [Ne, hzero, hand]
  omega

theorem folded_toNat (sum : UInt32) :
    ((sum &&& (0xFFFF : UInt32)) + (sum >>> 16)).toNat = wrap 65535 sum.toNat := by
  have hlt := sum.toNat_lt
  have hlow : (sum &&& (0xFFFF : UInt32)).toNat = sum.toNat % 65536 := by
    rw [UInt32.toNat_and]
    exact Nat.and_two_pow_sub_one_eq_mod sum.toNat 16
  have hhigh : (sum >>> 16).toNat = sum.toNat / 65536 := by
    rw [UInt32.toNat_shiftRight]
    exact Nat.shiftRight_eq_div_pow sum.toNat 16
  rw [UInt32.toNat_add, hlow, hhigh]
  unfold wrap
  omega

/-- The second loop of `iphdr_cksum`. -/
def fold (sum : UInt32) : UInt32 :=
  if sum &&& (0xFFFF0000 : UInt32) ≠ 0 then fold ((sum &&& (0xFFFF : UInt32)) + (sum >>> 16))
  else sum
termination_by sum.toNat
decreasing_by
  rw [folded_toNat]
  exact wrap_lt (by omega) ((mask_iff sum).mp ‹_›)

variable (config : CONFIG)

/-- `iphdr_cksum`. A last byte that has no partner is not summed. -/
def iphdr_cksum (data : List UInt8) : UInt16 :=
  if ¬ config.CALCULATE_CHECKSUMS then 0
  else
    let sum := (words data).foldl (fun sum w => sum + UInt32.ofNat w) 0
    (~~~ fold sum).toUInt16

def l4hdr_cksum (hdr next payload : List UInt8) : UInt16 :=
  if ¬ config.CALCULATE_CHECKSUMS then 0
  else
    let padd := payload.length % 2
    iphdr_cksum config (hdr ++ next ++ payload ++ List.replicate padd 0)

/-- `chksum_pseudoheader::construct`, for a next header of `sizeof` bytes. -/
def chksum_pseudoheader (src dst : List UInt8) (proto : UInt8) (payload_size sizeof : Nat) :
    List UInt8 :=
  src ++ dst ++ [0, proto] ++ u16 (payload_size + sizeof)

def L4_chksum (details : connection_details) (in_ : Int) (next_header payload : List UInt8) :
    UInt16 :=
  let construct (source destination : List UInt8) :=
    let (src, dst) := if in_ ≠ 0 then (destination, source) else (source, destination)
    chksum_pseudoheader src dst details.next_proto.toUInt8 payload.length next_header.length
  if details.ip_version = 4 ∨ details.ip_version = 0 then
    let hdr := construct (pcapng.u32 details.source.sin_addr)
      (pcapng.u32 details.destination.sin_addr)
    l4hdr_cksum config hdr next_header payload
  else if details.ip_version = 6 then
    let hdr := construct (in6_addr.bytes details.source.words)
      (in6_addr.bytes details.destination.words)
    l4hdr_cksum config hdr next_header payload
  else 0

/-! ## Record and link -/

def sizeof_linux_cooked_capture : Nat := 16
def sizeof_iphdr : Nat := 20
def sizeof_ip6_hdr : Nat := 40
def sizeof_grehdr : Nat := 4
def sizeof_tcphdr : Nat := 20
def sizeof_udphdr : Nat := 8

/-- `append_PCAP_header`. `now` is the time, in seconds and microseconds. -/
def append_PCAP_header (now : UInt32 × UInt32) (out_buffer : List UInt8)
    (details : connection_details) (payload_size : Nat) : List UInt8 :=
  let l3_hdr_size :=
    if details.ip_version = 4 ∨ details.ip_version = 0 then sizeof_iphdr
    else if details.ip_version = 6 then sizeof_ip6_hdr
    else 0
  let l4_hdr_size :=
    if details.next_proto = TCP ∨ details.next_proto = 0 then sizeof_tcphdr
    else if details.next_proto = UDP then sizeof_udphdr
    else 0
  let caplen :=
    UInt32.ofNat (sizeof_linux_cooked_capture + l3_hdr_size + l4_hdr_size + payload_size)
  out_buffer ++ (pcapng.u32 now.1 ++ pcapng.u32 now.2 ++ pcapng.u32 caplen ++ pcapng.u32 caplen)

def append_LCC_header (out_buffer : List UInt8) (details : connection_details) (in_ : Int) :
    List UInt8 :=
  let type := if in_ ≠ 0 then 0 else 4
  let ll_hdr_data := List.replicate 6 (if in_ ≠ 0 then 2 else 1) ++ [0, 0]
  let proto_type :=
    if details.ip_version = 4 then 0x0800
    else if details.ip_version = 6 then 0x86DD
    else 0
  -- ARPHRD_ETHER, and the size of an Ethernet address
  out_buffer ++ (u16 type ++ u16 1 ++ u16 6 ++ ll_hdr_data ++ u16 proto_type)

def append_GRE_header (out_buffer : List UInt8) (details : connection_details) : List UInt8 :=
  let next_proto := if details.ip_version = 6 then 0x86DD else 0x0800
  out_buffer ++ (u16 0 ++ u16 next_proto)

def l4_header_sz (details : connection_details) : Except error Nat :=
  if details.next_proto = TCP ∨ details.next_proto = 0 then pure sizeof_tcphdr
  else if details.next_proto = UDP then pure sizeof_udphdr
  else
    throw (.invalid_argument
      ("invalid tunnel inner l4 protocol: " ++ toString details.next_proto.toNat))

def l3_header_sz (details : connection_details) : Except error Nat :=
  if details.ip_version = 4 ∨ details.ip_version = 0 then pure sizeof_iphdr
  else if details.ip_version = 6 then pure sizeof_ip6_hdr
  else
    throw (.invalid_argument ("invalid IP version: " ++ toString details.ip_version.toNat))

/-! ## IP -/

def IPPROTO_GRE : UInt8 := 47

structure iphdr where
  version : Nat := 0
  ihl : Nat := 0
  tos : UInt8 := 0
  tot_len : UInt16 := 0
  -- the code stores it in the order of the machine
  id : UInt16 := 0
  frag_off : UInt16 := 0
  ttl : UInt8 := 0
  protocol : UInt8 := 0
  check : UInt16 := 0
  saddr : UInt32 := 0
  daddr : UInt32 := 0
deriving DecidableEq

def iphdr.bytes (h : iphdr) : List UInt8 :=
  [UInt8.ofNat (h.version * 16 + h.ihl), h.tos] ++ u16 h.tot_len.toNat ++ pcapng.u16 h.id ++
    u16 h.frag_off.toNat ++ [h.ttl, h.protocol] ++ u16 h.check.toNat ++ pcapng.u32 h.saddr ++
    pcapng.u32 h.daddr

structure ip6_hdr where
  ip6_flow : UInt32 := 0
  ip6_plen : UInt16 := 0
  ip6_nxt : UInt8 := 0
  ip6_hops : UInt8 := 0
  ip6_src : in6_addr := (0, 0, 0, 0)
  ip6_dst : in6_addr := (0, 0, 0, 0)
deriving DecidableEq

def ip6_hdr.bytes (h : ip6_hdr) : List UInt8 :=
  u32 h.ip6_flow.toNat ++ u16 h.ip6_plen.toNat ++ [h.ip6_nxt, h.ip6_hops] ++
    in6_addr.bytes h.ip6_src ++ in6_addr.bytes h.ip6_dst

/-- The length behind `below` bytes of headers, and the protocol, as `create_IPv4_header` and
`create_IPv6_header` choose them. -/
def length_and_protocol (details : connection_details) (direction : Int) (below payload_size : Nat) :
    Except error (UInt16 × UInt8) := do
  let l4_sz ← l4_header_sz details
  if direction ≤ 1 then
    pure (UInt16.ofNat (below + l4_sz + payload_size), details.next_proto.toUInt8)
  else
    let l3_sz ← l3_header_sz details
    if details.tun_proto = GRE then
      pure (UInt16.ofNat (below + sizeof_grehdr + l3_sz + l4_sz + payload_size), IPPROTO_GRE)
    else
      throw (.invalid_argument
        ("invalid tunneling protocol: " ++ toString details.next_proto.toNat))

variable (pton : inet_pton)

/-- The source and the destination, as `create_IPv4_header` and `create_IPv6_header` choose them.
Only inwards the addresses of a tunnel are packed first. -/
def endpoints (details : connection_details) (direction : Int) :
    Except error ((sockaddr_storage × sockaddr_storage) × connection_details) :=
  let tun_details := if direction > 1 then details.tun_details else none
  if direction % 2 ≠ 0 then
    match tun_details with
    | some tun => do
      let tun := tun.pack pton
      let src ← tun.dst.value
      let dst ← tun.src.value
      pure ((src, dst), { details with tun_details := some tun })
    | none => pure ((details.destination, details.source), details)
  else
    match tun_details with
    | some tun => do
      let src ← tun.src.value
      let dst ← tun.dst.value
      pure ((src, dst), details)
    | none => pure ((details.source, details.destination), details)

/-- `create_IPv4_header`. A `direction` is even outwards, odd inwards, and above 1 in a tunnel. -/
def create_IPv4_header (ip_header : iphdr) (details : connection_details) (direction : Int)
    (payload_size : Nat) : Except error (iphdr × connection_details) := do
  let ip_header := { ip_header with version := 4, ihl := 5, tos := 0 }
  let (tot_len, protocol) ← length_and_protocol details direction sizeof_iphdr payload_size
  let (id, details) :=
    if direction % 2 ≠ 0 then
      (details.ip_id_in, { details with ip_id_in := details.ip_id_in + 1 })
    else (details.ip_id_out, { details with ip_id_out := details.ip_id_out + 1 })
  let ((src, dst), details) ← endpoints pton details direction
  -- don't fragment
  let ip_header := { ip_header with
    tot_len, protocol, id, frag_off := 0x4000, ttl := details.ttl,
    saddr := src.sin_addr, daddr := dst.sin_addr }
  pure ({ ip_header with check := iphdr_cksum config ip_header.bytes }, details)

def create_IPv6_header (details : connection_details) (direction : Int) (payload_size : Nat) :
    Except error (ip6_hdr × connection_details) := do
  let (ip6_plen, ip6_nxt) ← length_and_protocol details direction 0 payload_size
  let ((src, dst), details) ← endpoints pton details direction
  pure ({ ip6_flow := 0x60000000, ip6_plen, ip6_nxt, ip6_hops := details.ttl,
          ip6_src := src.words, ip6_dst := dst.words }, details)

def encapulate_gre_v4 (out_buffer : List UInt8) (details : connection_details) (direction : Int)
    (payload_size : Nat) : Except error (List UInt8 × connection_details) := do
  let (tun_hdr, details) ←
    create_IPv4_header config pton {} details (direction + 2) payload_size
  let tun_hdr := { tun_hdr with
    protocol := IPPROTO_GRE, ttl := details.tun_ttl, saddr := 0, daddr := 0 }
  let tun_details := details.tun_details.map fun tun => tun.pack pton
  let tun_hdr := match tun_details with
    | some tun =>
      { tun_hdr with
        saddr := ((tun.src.of_family AF_INET).map sockaddr_storage.sin_addr).getD 0
        daddr := ((tun.dst.of_family AF_INET).map sockaddr_storage.sin_addr).getD 0 }
    | none => tun_hdr
  pure (append_GRE_header (out_buffer ++ tun_hdr.bytes) details, { details with tun_details })

def encapsulate_gre_v6 (out_buffer : List UInt8) (details : connection_details) (direction : Int)
    (payload_size : Nat) : Except error (List UInt8 × connection_details) := do
  let (tun_hdr, details) ← create_IPv6_header pton details (direction + 2) payload_size
  let none_addr : in6_addr := (0, 0, 0, 0)
  let tun_hdr := { tun_hdr with
    ip6_nxt := IPPROTO_GRE, ip6_hops := details.tun_ttl, ip6_src := none_addr,
    ip6_dst := none_addr }
  let tun_details := details.tun_details.map fun tun => tun.pack pton
  let tun_hdr := match tun_details with
    | some tun =>
      { tun_hdr with
        ip6_src := ((tun.src.of_family AF_INET6).map sockaddr_storage.words).getD none_addr
        ip6_dst := ((tun.dst.of_family AF_INET6).map sockaddr_storage.words).getD none_addr }
    | none => tun_hdr
  pure (append_GRE_header (out_buffer ++ tun_hdr.bytes) details, { details with tun_details })

/-- What `append_IPv4_header` and `append_IPv6_header` put in front of the header for a tunnel. -/
def encapsulate (out_buffer : List UInt8) (details : connection_details) (direction : Int)
    (payload_size : Nat) : Except error (List UInt8 × connection_details) :=
  if details.tun_proto = GRE then
    if details.tun_details.any fun tun => tun.src.family = AF_INET6 then
      encapsulate_gre_v6 pton out_buffer details direction payload_size
    else encapulate_gre_v4 config pton out_buffer details direction payload_size
  else pure (out_buffer, details)

def append_IPv4_header (out_buffer : List UInt8) (details : connection_details) (direction : Int)
    (payload_size : Nat) : Except error (List UInt8 × connection_details) := do
  let (ip_header, details) ← create_IPv4_header config pton {} details direction payload_size
  let (out_buffer, details) ← encapsulate config pton out_buffer details direction payload_size
  pure (out_buffer ++ ip_header.bytes, details)

def append_IPv6_header (out_buffer : List UInt8) (details : connection_details) (direction : Int)
    (payload_size : Nat) : Except error (List UInt8 × connection_details) := do
  let (ip_header, details) ← create_IPv6_header pton details direction payload_size
  let (out_buffer, details) ← encapsulate config pton out_buffer details direction payload_size
  pure (out_buffer ++ ip_header.bytes, details)

def append_IP_header (out_buffer : List UInt8) (details : connection_details) (in_ : Int)
    (payload_size : Nat) : Except error (List UInt8 × connection_details) :=
  if details.ip_version = 4 then append_IPv4_header config pton out_buffer details in_ payload_size
  else if details.ip_version = 6 then
    append_IPv6_header config pton out_buffer details in_ payload_size
  else pure (out_buffer, details)

/-! ## TCP and UDP -/

/-- The checksum of TCP. -/
def tcp_chksum (details : connection_details) (in_ : Int) (tcp_header : tcphdr)
    (payload : List UInt8) : UInt16 :=
  L4_chksum config details in_ tcp_header.bytes payload

/-- `append_TCP_header`. The ports are those of the addresses. -/
def append_TCP_header (out_buffer : List UInt8) (details : tcp_details connection_details)
    (in_ : Int) (payload : List UInt8) (tcpflags : UInt8) :
    List UInt8 × tcp_details connection_details :=
  let (sport, dport) := details.ip.extract_ports
  let (tcp_header, details) :=
    pcap.append_TCP_header (tcp_chksum config) { details with sport, dport } in_ payload tcpflags
  (out_buffer ++ tcp_header.bytes, details)

structure udphdr where
  source : UInt16 := 0
  dest : UInt16 := 0
  len : UInt16 := 0
  check : UInt16 := 0
deriving DecidableEq

def udphdr.bytes (h : udphdr) : List UInt8 :=
  u16 h.source.toNat ++ u16 h.dest.toNat ++ u16 h.len.toNat ++ u16 h.check.toNat

def append_UDP_header (out_buffer : List UInt8) (details : connection_details) (in_ : Int)
    (payload : List UInt8) : List UInt8 :=
  let (sport, dport) := details.extract_ports
  let (source, dest) := if in_ ≠ 0 then (dport, sport) else (sport, dport)
  let udp_header : udphdr :=
    { source, dest, len := UInt16.ofNat (sizeof_udphdr + payload.length) }
  let udp_header := { udp_header with
    check := L4_chksum config details in_ udp_header.bytes payload }
  out_buffer ++ udp_header.bytes

/-! ## Frames -/

variable (now : UInt32 × UInt32)

/-- `append_TCP_frame`: what it returns, the buffer, and the details. -/
def append_TCP_frame (out_buffer data : List UInt8) (size in_ : Int) (tcpflags : UInt8)
    (details : tcp_details connection_details) :
    Except error (Int × List UInt8 × tcp_details connection_details) := do
  if size < 0 then
    pure (-1, out_buffer, details)
  else
    let payload := data.take size.toNat
    let out_buffer := append_PCAP_header now out_buffer details.ip size.toNat
    let out_buffer := append_LCC_header out_buffer details.ip in_
    let (out_buffer, ip) ← append_IP_header config pton out_buffer details.ip in_ size.toNat
    let (out_buffer, details) :=
      append_TCP_header config out_buffer { details with ip } in_ payload tcpflags
    let out_buffer := out_buffer ++ payload
    pure (out_buffer.length, out_buffer, details)

def append_UDP_frame (out_buffer data : List UInt8) (size in_ : Int)
    (details : connection_details) :
    Except error (Int × List UInt8 × connection_details) := do
  if size < 0 then
    pure (-1, out_buffer, details)
  else
    let payload := data.take size.toNat
    let out_buffer := append_PCAP_header now out_buffer details size.toNat
    let out_buffer := append_LCC_header out_buffer details in_
    let (out_buffer, details) ← append_IP_header config pton out_buffer details in_ size.toNat
    let out_buffer := append_UDP_header config out_buffer details in_ payload
    let out_buffer := out_buffer ++ payload
    pure (out_buffer.length, out_buffer, details)

/-- `append_UDP` of `pcapng_epb`: what it returns, the buffer, the block, and the details. -/
def append_UDP (epb : pcapng.pcapng_epb) (out_buffer data : List UInt8) (size in_ : Int)
    (details : connection_details) :
    Except error (Int × List UInt8 × pcapng.pcapng_epb × connection_details) := do
  if size < 0 then
    pure (-1, out_buffer, epb, details)
  else
    let payload := data.take size.toNat
    let packet_data := append_LCC_header [] details in_
    let (packet_data, details) ← append_IP_header config pton packet_data details in_ size.toNat
    let packet_data := append_UDP_header config packet_data details in_ payload
    let epb := { epb with packet_data := some (packet_data ++ payload) }
    let (_, out_buffer, epb) := epb.append now out_buffer
    pure (out_buffer.length, out_buffer, epb, details)

/-- The headers below TCP in a block. Nothing is appended when they throw. -/
def lower_headers (details : connection_details) (in_ : Int) (payload_size : Nat) :
    List UInt8 × connection_details :=
  match append_IP_header config pton (append_LCC_header [] details in_) details in_
      payload_size with
  | .ok r => r
  | .error _ => ([], details)

end socle.pcap.frames
