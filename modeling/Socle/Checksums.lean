-- The checksums of captured frames (pcapapi.cpp): what a receiver sums up is all
-- ones, the IPv4 header, and the TCP or UDP header with its pseudo-header and its
-- payload. The code adds 32-bit words and wraps the carries at the end.
import Socle.Frames

namespace socle.pcap.frames

open lib.bytes lib.ones

/-! ## What a receiver sums up -/

/-- A frame, cut in front of its IP header, its TCP or UDP header, and its payload. -/
structure Frame where
  front : List UInt8
  ip : List UInt8
  l4 : List UInt8
  payload : List UInt8

def Frame.bytes (f : Frame) : List UInt8 :=
  f.front ++ f.ip ++ f.l4 ++ f.payload

/-- The pseudo-header of a packet with an IP header, for `len` bytes behind that header. -/
def pseudo_header (ip_version : UInt8) (ip : List UInt8) (len : Nat) : List UInt8 :=
  if ip_version = 6 then (ip.drop 8).take 32 ++ u32 len ++ [0, 0, 0, ip.getD 6 0]
  else (ip.drop 12).take 8 ++ [0, ip.getD 9 0] ++ u16 len

/-- The payload, with a zero behind an odd length. -/
def padded (payload : List UInt8) : List UInt8 :=
  payload ++ List.replicate (payload.length % 2) 0

/-- The one's-complement sum. -/
def ones_sum (l : List UInt8) : Nat :=
  sum 0xFFFF (words l)

example : ones_sum [0x45, 0, 0, 0x73, 0, 0, 0x40, 0, 0x40, 0x11, 0xb8, 0x61, 0xc0, 0xa8, 0, 1, 0xc0,
    0xa8, 0, 0xc7] = 0xFFFF := by decide

/-- The headers are whole, and both sums are all ones. -/
structure Frame.Sums (ip_version : UInt8) (next_proto : UInt16) (f : Frame) : Prop where
  ip_size : f.ip.length = if ip_version = 6 then sizeof_ip6_hdr else sizeof_iphdr
  l4_size : f.l4.length = if next_proto = TCP then sizeof_tcphdr else sizeof_udphdr
  ip : ip_version = 4 → ones_sum f.ip = 0xFFFF
  l4 : ones_sum (pseudo_header ip_version f.ip (f.l4.length + f.payload.length) ++ f.l4 ++
    padded f.payload) = 0xFFFF

/-! ## The sum of the code -/

variable {config : CONFIG}

/-- The sum does not overflow when the numbers add up to 32 bits. -/
theorem foldl_toNat {ws : List Nat} {s : UInt32} (h : s.toNat + ws.sum < 4294967296) :
    (ws.foldl (fun sum w => sum + UInt32.ofNat w) s).toNat = s.toNat + ws.sum := by
  induction ws generalizing s with
  | nil => simp
  | cons w ws ih =>
    rw [List.sum_cons] at h
    have hstep : (s + UInt32.ofNat w).toNat = s.toNat + w := by
      rw [UInt32.toNat_add, UInt32.toNat_ofNat']
      omega
    rw [List.foldl_cons, ih (by omega), hstep, List.sum_cons, Nat.add_assoc]

theorem fold_toNat (s : UInt32) : (fold s).toNat = carry 65535 s.toNat := by
  fun_induction fold s with
  | case1 s h ih =>
    rw [ih, folded_toNat, carry.eq_def 65535 s.toNat, if_pos ⟨by omega, (mask_iff s).mp h⟩]
  | case2 s h =>
    rw [carry.eq_def, if_neg]
    exact fun hmore => h ((mask_iff s).mpr hmore.2)

/-- The checksum is the complement of the sum. -/
theorem iphdr_cksum_eq (hon : config.CALCULATE_CHECKSUMS) {data : List UInt8}
    (hlen : data.length ≤ 131072) :
    (iphdr_cksum config data).toNat = 65535 - carry 65535 (total data) := by
  have htotal := total_le data
  have hle := (represents_carry (by omega : 0 < 65535) (total data)).le
  have hsum : ((words data).foldl (fun sum w => sum + UInt32.ofNat w) 0).toNat = total data := by
    rw [foldl_toNat, UInt32.toNat_zero, Nat.zero_add]
    · rfl
    · rw [UInt32.toNat_zero, Nat.zero_add]
      unfold total at htotal
      omega
  have hsize : UInt32.size = 4294967296 := rfl
  unfold iphdr_cksum
  rw [if_neg (not_not_intro hon)]
  dsimp only
  rw [UInt32.toNat_toUInt16, UInt32.toNat_not, fold_toNat, hsum]
  omega

/-- Data that add up to what was summed and its checksum are all ones. -/
theorem checksum_fills (hon : config.CALCULATE_CHECKSUMS) {summed data : List UInt8}
    (hlen : summed.length ≤ 131072)
    (h : total data = total summed + (iphdr_cksum config summed).toNat) :
    ones_sum data = 0xFFFF := by
  rw [iphdr_cksum_eq hon hlen] at h
  exact sum_complement (by omega) (fun w hw => words_le w hw) h

/-! ## Headers with a checksum in them -/

/-- `iphdr` in front of its checksum. -/
def iphdr.front (h : iphdr) : List UInt8 :=
  [UInt8.ofNat (h.version * 16 + h.ihl), h.tos] ++ u16 h.tot_len.toNat ++ pcapng.u16 h.id ++
    u16 h.frag_off.toNat ++ [h.ttl, h.protocol]

theorem iphdr_total (h : iphdr) (check : UInt16) :
    total { h with check }.bytes = total { h with check := 0 }.bytes + check.toNat := by
  have hsplit : ∀ check, iphdr.bytes { h with check } =
      h.front ++ u16 check.toNat ++ (pcapng.u32 h.saddr ++ pcapng.u32 h.daddr) := by
    intro check
    unfold iphdr.bytes iphdr.front
    rw [List.append_assoc _ (pcapng.u32 h.saddr)]
  rw [hsplit, hsplit]
  apply total_field _ check.toNat_lt
  simp [iphdr.front]

/-- `create_IPv4_header` leaves the checksum 0 until it has the sum. -/
theorem iphdr_sums (hon : config.CALCULATE_CHECKSUMS) {h : iphdr} (hcheck : h.check = 0) :
    ones_sum { h with check := iphdr_cksum config h.bytes }.bytes = 0xFFFF := by
  have hzero : { h with check := 0 } = h := by
    rw [← hcheck]
  have hlen : h.bytes.length ≤ 131072 := by
    have heq : h.bytes.length = 20 := rfl
    omega
  apply checksum_fills hon hlen
  rw [iphdr_total, hzero]

theorem tcphdr_total (h : tcphdr) (check : UInt16) :
    total { h with check }.bytes = total { h with check := 0 }.bytes + check.toNat := by
  apply total_field _ check.toNat_lt
  simp

theorem udphdr_total (h : udphdr) (check : UInt16) :
    total { h with check }.bytes = total { h with check := 0 }.bytes + check.toNat := by
  have hsplit : ∀ check, udphdr.bytes { h with check } =
      u16 h.source.toNat ++ u16 h.dest.toNat ++ u16 h.len.toNat ++ u16 check.toNat ++ [] := by
    intro check
    rw [List.append_nil]
    rfl
  rw [hsplit, hsplit]
  apply total_field _ check.toNat_lt
  simp

/-! ## Pseudo-headers -/

/-- The bytes of an address. -/
def address (ip_version : UInt8) (ss : udp.sockaddr_storage) : List UInt8 :=
  if ip_version = 6 then in6_addr.bytes ss.words else pcapng.u32 ss.sin_addr

theorem address_even (ip_version : UInt8) (ss : udp.sockaddr_storage) :
    (address ip_version ss).length % 2 = 0 := by
  unfold address
  split <;> simp [in6_addr.bytes]

/-- What the pseudo-header of a connection adds, for `len` bytes behind the IP header. -/
def pseudo_total (details : connection_details) (len : Nat) : Nat :=
  total (address details.ip_version details.source) +
    total (address details.ip_version details.destination) +
    details.next_proto.toUInt8.toNat + len

theorem pseudoheader_total {src dst : List UInt8} (hsrc : src.length % 2 = 0)
    (hdst : dst.length % 2 = 0) (proto : UInt8) {payload_size sizeof : Nat}
    (hlen : payload_size + sizeof < 65536) :
    total (chksum_pseudoheader src dst proto payload_size sizeof) =
      total src + total dst + proto.toNat + (payload_size + sizeof) := by
  have heven : (src ++ dst).length % 2 = 0 := by
    rw [List.length_append]
    omega
  have heven' : (src ++ dst ++ [0, proto]).length % 2 = 0 := by
    rw [List.length_append, List.length_cons, List.length_cons, List.length_nil]
    omega
  unfold chksum_pseudoheader
  rw [total_append heven', total_append heven, total_append hsrc, total_u16 hlen, total_pair]
  simp [be16]

theorem pseudo_header_even (ip_version : UInt8) {ip : List UInt8} (len : Nat)
    (hip : ip.length = if ip_version = 6 then sizeof_ip6_hdr else sizeof_iphdr) :
    (pseudo_header ip_version ip len).length % 2 = 0 := by
  unfold pseudo_header
  by_cases h6 : ip_version = 6
  · rw [if_pos h6] at hip ⊢
    simp [hip, sizeof_ip6_hdr]
  · rw [if_neg h6] at hip ⊢
    simp [hip, sizeof_iphdr]

/-- What the receiver adds for an IPv4 header. -/
theorem iphdr_pseudo {ip_version : UInt8} (h6 : ip_version ≠ 6) (h : iphdr) {len : Nat}
    (hlen : len < 65536) :
    total (pseudo_header ip_version h.bytes len) =
      total (pcapng.u32 h.saddr) + total (pcapng.u32 h.daddr) + h.protocol.toNat + len := by
  have hheader : pseudo_header ip_version h.bytes len =
      chksum_pseudoheader (pcapng.u32 h.saddr) (pcapng.u32 h.daddr) h.protocol len 0 := by
    unfold pseudo_header
    rw [if_neg h6]
    rfl
  rw [hheader]
  exact pseudoheader_total (by simp) (by simp) h.protocol hlen

/-- For an IPv6 header it adds a length of 32 bits, and the same. -/
theorem ip6_hdr_pseudo (h : ip6_hdr) {len : Nat} (hlen : len < 65536) :
    total (pseudo_header 6 h.bytes len) =
      total (in6_addr.bytes h.ip6_src) + total (in6_addr.bytes h.ip6_dst) + h.ip6_nxt.toNat +
        len := by
  have hheader : pseudo_header 6 h.bytes len =
      in6_addr.bytes h.ip6_src ++ in6_addr.bytes h.ip6_dst ++ u32 len ++
        ([0, 0] ++ [0, h.ip6_nxt]) := rfl
  have hlow : total (u32 len) = len := by
    unfold u32
    rw [total_append (by simp), total_u16 (by omega), total_u16 (by omega)]
    omega
  have hnxt : total ([0, 0] ++ [0, h.ip6_nxt]) = h.ip6_nxt.toNat := by
    rw [total_append (by simp), total_pair, total_pair]
    simp [be16]
  rw [hheader, total_append (by simp [in6_addr.bytes]), total_append (by simp [in6_addr.bytes]),
    total_append (by simp [in6_addr.bytes]), hlow, hnxt]
  omega

/-! ## The sum of a segment or datagram -/

variable {details : connection_details}

/-- The pseudo-header of the code, with the addresses of the version. -/
def summed_header (details : connection_details) (in_ : Int) (payload_size sizeof : Nat) :
    List UInt8 :=
  let source := address details.ip_version details.source
  let destination := address details.ip_version details.destination
  chksum_pseudoheader (if in_ ≠ 0 then destination else source)
    (if in_ ≠ 0 then source else destination) details.next_proto.toUInt8 payload_size sizeof

theorem L4_chksum_eq (hver : details.ip_version = 4 ∨ details.ip_version = 6) (in_ : Int)
    (next payload : List UInt8) :
    L4_chksum config details in_ next payload =
      l4hdr_cksum config (summed_header details in_ payload.length next.length) next payload := by
  unfold L4_chksum summed_header
  rcases hver with h4 | h6
  · have h6 : ¬ details.ip_version = 6 := by
      rw [h4]
      decide
    rw [if_pos (Or.inl h4)]
    simp only [address, if_neg h6]
    split <;> rfl
  · have h4 : ¬ (details.ip_version = 4 ∨ details.ip_version = 0) := by
      rw [h6]
      decide
    rw [if_neg h4, if_pos h6]
    simp only [address, if_pos h6]
    split <;> rfl

theorem summed_header_length (in_ : Int) (payload_size sizeof : Nat) :
    (summed_header details in_ payload_size sizeof).length % 2 = 0 ∧
      (summed_header details in_ payload_size sizeof).length ≤ 36 := by
  unfold summed_header chksum_pseudoheader address
  by_cases hin : in_ ≠ 0 <;> by_cases h6 : details.ip_version = 6 <;>
    simp [hin, h6, in6_addr.bytes]

/-- Inwards the addresses change places, which adds the same. -/
theorem summed_header_total (in_ : Int) {payload_size sizeof : Nat}
    (hlen : payload_size + sizeof < 65536) :
    total (summed_header details in_ payload_size sizeof) =
      pseudo_total details (payload_size + sizeof) := by
  have hsource := address_even details.ip_version details.source
  have hdestination := address_even details.ip_version details.destination
  unfold summed_header pseudo_total
  by_cases hin : in_ ≠ 0
  · simp only [if_pos hin]
    rw [pseudoheader_total hdestination hsource _ hlen]
    omega
  · simp only [if_neg hin]
    rw [pseudoheader_total hsource hdestination _ hlen]

/-- A header that got the checksum makes the sum of the receiver all ones. -/
theorem l4_sums (hon : config.CALCULATE_CHECKSUMS)
    (hver : details.ip_version = 4 ∨ details.ip_version = 6) {in_ : Int}
    {pseudo next next' payload : List UInt8} (hlen : payload.length + next.length < 65536)
    (hpseudo : total pseudo = pseudo_total details (payload.length + next.length))
    (heven : pseudo.length % 2 = 0) (hnext : next.length % 2 = 0) (hnext' : next'.length % 2 = 0)
    (hcheck : total next' = total next + (L4_chksum config details in_ next payload).toNat) :
    ones_sum (pseudo ++ next' ++ padded payload) = 0xFFFF := by
  obtain ⟨hhdr, hsize⟩ := @summed_header_length details in_ payload.length next.length
  have htotal := @summed_header_total details in_ _ _ hlen
  have heq := @L4_chksum_eq config details hver in_ next payload
  generalize summed_header details in_ payload.length next.length = hdr at hhdr hsize htotal heq
  have hsum : L4_chksum config details in_ next payload =
      iphdr_cksum config (hdr ++ next ++ padded payload) := by
    rw [heq]
    unfold l4hdr_cksum padded
    rw [if_neg (not_not_intro hon)]
    dsimp only
    rw [List.append_assoc (hdr ++ next)]
  have hpadded : (padded payload).length ≤ payload.length + 1 := by
    unfold padded
    rw [List.length_append, List.length_replicate]
    omega
  have hsummed : (hdr ++ next ++ padded payload).length ≤ 131072 := by
    simp only [List.length_append]
    omega
  apply checksum_fills hon hsummed
  rw [total_append (by rw [List.length_append]; omega), total_append heven,
    total_append (by rw [List.length_append]; omega), total_append hhdr, ← hsum, hcheck, htotal,
    hpseudo]
  omega

/-! ## The IP header of a frame without a tunnel -/

/-- The IP header names its version's size and protocol, sums up, and adds what the code summed. -/
structure Heads (details : connection_details) (ip : List UInt8) : Prop where
  size : ip.length = if details.ip_version = 6 then sizeof_ip6_hdr else sizeof_iphdr
  sum : details.ip_version = 4 → ones_sum ip = 0xFFFF
  pseudo : ∀ len < 65536,
    total (pseudo_header details.ip_version ip len) = pseudo_total details len

variable {pton : inet_pton} {in_ : Int} {n : Nat}

theorem length_and_protocol_plain (hproto : details.next_proto = TCP ∨ details.next_proto = UDP)
    (hin : in_ ≤ 1) (below : Nat) :
    ∃ len, length_and_protocol details in_ below n = .ok (len, details.next_proto.toUInt8) := by
  unfold length_and_protocol l4_header_sz
  rcases hproto with h | h
  · rw [if_pos (Or.inl h)]
    simp only [hin, if_true, pure_bind]
    exact ⟨_, rfl⟩
  · have hno : ¬ (details.next_proto = TCP ∨ details.next_proto = 0) := by
      rw [h]
      decide
    rw [if_neg hno, if_pos h]
    simp only [hin, if_true, pure_bind]
    exact ⟨_, rfl⟩

/-- A direction of a tunnel is refused when there is none. -/
theorem length_and_protocol_refused (htun : details.tun_proto ≠ GRE) (hin : 1 < in_)
    (below : Nat) : ∃ e, length_and_protocol details in_ below n = .error e := by
  have hno : ¬ in_ ≤ 1 := by omega
  unfold length_and_protocol
  cases l4_header_sz details with
  | error e => exact ⟨e, rfl⟩
  | ok l4_sz =>
    cases l3_header_sz details with
    | error e => exact ⟨e, by simp [hno, bind, Except.bind]⟩
    | ok l3_sz => exact ⟨_, by simp [hno, htun, bind, Except.bind]; rfl⟩

theorem endpoints_plain (hin : in_ ≤ 1) :
    ∃ src dst, endpoints pton details in_ = .ok ((src, dst), details) ∧
      (src = details.source ∧ dst = details.destination ∨
        src = details.destination ∧ dst = details.source) := by
  have hno : ¬ in_ > 1 := by omega
  unfold endpoints
  rw [if_neg hno]
  dsimp only
  split
  · exact ⟨_, _, rfl, Or.inr ⟨rfl, rfl⟩⟩
  · exact ⟨_, _, rfl, Or.inl ⟨rfl, rfl⟩⟩

theorem create_IPv4_header_plain (hproto : details.next_proto = TCP ∨ details.next_proto = UDP)
    (hin : in_ ≤ 1) :
    ∃ (h : iphdr) (details' : connection_details),
      create_IPv4_header config pton {} details in_ n =
        .ok ({ h with check := iphdr_cksum config h.bytes }, details') ∧
      (∃ ip_id_in ip_id_out, details' = { details with ip_id_in, ip_id_out }) ∧
      h.check = 0 ∧ h.protocol = details.next_proto.toUInt8 ∧
      (h.saddr = details.source.sin_addr ∧ h.daddr = details.destination.sin_addr ∨
        h.saddr = details.destination.sin_addr ∧ h.daddr = details.source.sin_addr) := by
  obtain ⟨len, hlen⟩ := @length_and_protocol_plain details in_ n hproto hin sizeof_iphdr
  have hids : ∃ id ip_id_in ip_id_out,
      (if in_ % 2 ≠ 0 then
        (details.ip_id_in, { details with ip_id_in := details.ip_id_in + 1 })
      else (details.ip_id_out, { details with ip_id_out := details.ip_id_out + 1 })) =
        (id, { details with ip_id_in, ip_id_out }) := by
    split
    · exact ⟨_, _, _, rfl⟩
    · exact ⟨_, _, _, rfl⟩
  obtain ⟨id, ip_id_in, ip_id_out, hids⟩ := hids
  obtain ⟨src, dst, hends, hsides⟩ := @endpoints_plain
    { details with ip_id_in, ip_id_out } pton in_ hin
  let h : iphdr := {
    version := 4, ihl := 5, tot_len := len, id, frag_off := 0x4000, ttl := details.ttl,
    protocol := details.next_proto.toUInt8, saddr := src.sin_addr, daddr := dst.sin_addr }
  refine ⟨h, { details with ip_id_in, ip_id_out }, ?_, ⟨ip_id_in, ip_id_out, rfl⟩, rfl, rfl, ?_⟩
  · unfold create_IPv4_header
    rw [hlen]
    simp only [bind, Except.bind, hids, hends]
    rfl
  · rcases hsides with ⟨rfl, rfl⟩ | ⟨rfl, rfl⟩
    · exact Or.inl ⟨rfl, rfl⟩
    · exact Or.inr ⟨rfl, rfl⟩

theorem create_IPv6_header_plain (hproto : details.next_proto = TCP ∨ details.next_proto = UDP)
    (hin : in_ ≤ 1) :
    ∃ h : ip6_hdr, create_IPv6_header pton details in_ n = .ok (h, details) ∧
      h.ip6_nxt = details.next_proto.toUInt8 ∧
      (h.ip6_src = details.source.words ∧ h.ip6_dst = details.destination.words ∨
        h.ip6_src = details.destination.words ∧ h.ip6_dst = details.source.words) := by
  obtain ⟨len, hlen⟩ := @length_and_protocol_plain details in_ n hproto hin 0
  obtain ⟨src, dst, hends, hsides⟩ := @endpoints_plain details pton in_ hin
  unfold create_IPv6_header
  rw [hlen]
  simp only [bind, Except.bind]
  rw [hends]
  refine ⟨_, rfl, rfl, ?_⟩
  rcases hsides with ⟨rfl, rfl⟩ | ⟨rfl, rfl⟩
  · exact Or.inl ⟨rfl, rfl⟩
  · exact Or.inr ⟨rfl, rfl⟩

theorem encapsulate_plain (htun : details.tun_proto ≠ GRE) (out_buffer : List UInt8) :
    encapsulate config pton out_buffer details in_ n = .ok (out_buffer, details) := by
  unfold encapsulate
  rw [if_neg htun]
  rfl

theorem append_IPv4_header_plain (hon : config.CALCULATE_CHECKSUMS)
    (htun : details.tun_proto ≠ GRE) (hver : details.ip_version = 4)
    (hproto : details.next_proto = TCP ∨ details.next_proto = UDP) (hin : in_ ≤ 1)
    (out_buffer : List UInt8) :
    ∃ ip ip_id_in ip_id_out, append_IPv4_header config pton out_buffer details in_ n =
        .ok (out_buffer ++ ip, { details with ip_id_in, ip_id_out }) ∧ Heads details ip := by
  obtain ⟨h, details', hcreate, ⟨ip_id_in, ip_id_out, rfl⟩, hcheck, hprotocol, hsides⟩ :=
    @create_IPv4_header_plain config details pton in_ n hproto hin
  have hno6 : details.ip_version ≠ 6 := by
    rw [hver]
    decide
  refine ⟨_, ip_id_in, ip_id_out, ?_, ?_, fun _ => iphdr_sums hon hcheck, fun len hlen => ?_⟩
  · have henc := @encapsulate_plain config { details with ip_id_in, ip_id_out } pton in_ n htun
      out_buffer
    unfold append_IPv4_header
    rw [hcreate]
    simp only [bind, Except.bind]
    rw [henc]
    rfl
  · rw [if_neg hno6]
    rfl
  · rw [iphdr_pseudo hno6 _ hlen]
    unfold pseudo_total address
    simp only [if_neg hno6, hprotocol]
    rcases hsides with ⟨hs, hd⟩ | ⟨hs, hd⟩
    · rw [hs, hd]
    · rw [hs, hd, Nat.add_comm (total _) (total _)]

theorem append_IPv6_header_plain (htun : details.tun_proto ≠ GRE)
    (hver : details.ip_version = 6)
    (hproto : details.next_proto = TCP ∨ details.next_proto = UDP) (hin : in_ ≤ 1)
    (out_buffer : List UInt8) :
    ∃ ip, append_IPv6_header config pton out_buffer details in_ n =
        .ok (out_buffer ++ ip, details) ∧ Heads details ip := by
  obtain ⟨h, hcreate, hnxt, hsides⟩ := @create_IPv6_header_plain details pton in_ n hproto hin
  have hno4 : details.ip_version ≠ 4 := by
    rw [hver]
    decide
  refine ⟨h.bytes, ?_, ?_, fun h4 => absurd h4 hno4, fun len hlen => ?_⟩
  · unfold append_IPv6_header
    rw [hcreate]
    simp only [bind, Except.bind]
    rw [encapsulate_plain htun]
    rfl
  · rw [if_pos hver]
    rfl
  · rw [hver, ip6_hdr_pseudo h hlen, hnxt]
    unfold pseudo_total address
    simp only [if_pos hver]
    rcases hsides with ⟨hs, hd⟩ | ⟨hs, hd⟩
    · rw [hs, hd]
    · rw [hs, hd, Nat.add_comm (total _) (total _)]

theorem append_IP_header_plain (hon : config.CALCULATE_CHECKSUMS)
    (htun : details.tun_proto ≠ GRE)
    (hver : details.ip_version = 4 ∨ details.ip_version = 6)
    (hproto : details.next_proto = TCP ∨ details.next_proto = UDP) (hin : in_ ≤ 1)
    (out_buffer : List UInt8) :
    ∃ ip ip_id_in ip_id_out, append_IP_header config pton out_buffer details in_ n =
        .ok (out_buffer ++ ip, { details with ip_id_in, ip_id_out }) ∧ Heads details ip := by
  unfold append_IP_header
  rcases hver with h4 | h6
  · rw [if_pos h4]
    exact append_IPv4_header_plain hon htun h4 hproto hin out_buffer
  · have hno4 : details.ip_version ≠ 4 := by
      rw [h6]
      decide
    obtain ⟨ip, happend, hip⟩ := @append_IPv6_header_plain config details pton in_ n htun h6 hproto
      hin out_buffer
    rw [if_neg hno4, if_pos h6]
    exact ⟨ip, details.ip_id_in, details.ip_id_out, happend, hip⟩

theorem append_IP_header_refused (htun : details.tun_proto ≠ GRE)
    (hver : details.ip_version = 4 ∨ details.ip_version = 6) (hin : 1 < in_)
    (out_buffer : List UInt8) :
    ∃ e, append_IP_header config pton out_buffer details in_ n = .error e := by
  unfold append_IP_header
  rcases hver with h4 | h6
  · obtain ⟨e, he⟩ := @length_and_protocol_refused details in_ n htun hin sizeof_iphdr
    refine ⟨e, ?_⟩
    rw [if_pos h4]
    unfold append_IPv4_header create_IPv4_header
    rw [he]
    rfl
  · obtain ⟨e, he⟩ := @length_and_protocol_refused details in_ n htun hin 0
    have hno4 : details.ip_version ≠ 4 := by
      rw [h6]
      decide
    refine ⟨e, ?_⟩
    rw [if_neg hno4, if_pos h6]
    unfold append_IPv6_header create_IPv6_header
    rw [he]
    rfl

/-! ## Packets -/

variable {payload : List UInt8}

/-- The parts of a packet: an IP header, and a TCP or UDP header of an even size that was summed
with a checksum of 0 and got what came out. -/
theorem frame_sums (hon : config.CALCULATE_CHECKSUMS)
    (hver : details.ip_version = 4 ∨ details.ip_version = 6)
    (hlen : payload.length ≤ 65000) {ip next next' : List UInt8} (hip : Heads details ip)
    (hnext : next.length = if details.next_proto = TCP then sizeof_tcphdr else sizeof_udphdr)
    (hnext' : next'.length = next.length)
    (hcheck : total next' = total next + (L4_chksum config details in_ next payload).toNat)
    (front : List UInt8) :
    Frame.Sums details.ip_version details.next_proto { front, ip, l4 := next', payload } := by
  have hsize : next.length % 2 = 0 ∧ next.length ≤ 20 := by
    rw [hnext]
    split <;> decide
  have heven := pseudo_header_even details.ip_version (next'.length + payload.length) hip.size
  refine ⟨hip.size, hnext'.trans hnext, hip.sum, ?_⟩
  apply l4_sums hon hver (by omega) _ heven hsize.1 (by omega) hcheck
  rw [hnext', Nat.add_comm next.length]
  exact hip.pseudo _ (by omega)

/-- TCP gets its checksum last. -/
theorem tcphdr_check (L4_chksum : connection_details → Int → tcphdr → List UInt8 → UInt16)
    (details : tcp_details connection_details) (in_ : Int) (payload : List UInt8)
    (tcpflags : UInt8) :
    let h := (pcap.append_TCP_header L4_chksum details in_ payload tcpflags).1
    h.check = L4_chksum details.ip in_ { h with check := 0 } payload := by
  unfold pcap.append_TCP_header
  by_cases hin : in_ ≠ 0
  · simp only [if_pos hin]
  · simp only [if_neg hin]

/-- The TCP header that stands in a packet. -/
theorem tcp_sums (hon : config.CALCULATE_CHECKSUMS) {details : tcp_details connection_details}
    (hver : details.ip.ip_version = 4 ∨ details.ip.ip_version = 6)
    (hproto : details.ip.next_proto = TCP) (hlen : payload.length ≤ 65000) {ip : List UInt8}
    (hip : Heads details.ip ip) (tcpflags : UInt8) (front : List UInt8) :
    Frame.Sums details.ip.ip_version details.ip.next_proto
      { front, ip, payload
        l4 := (pcap.append_TCP_header (tcp_chksum config) details in_ payload
          tcpflags).1.bytes } := by
  have hcheck := tcphdr_check (tcp_chksum config) details in_ payload tcpflags
  generalize (pcap.append_TCP_header (tcp_chksum config) details in_ payload tcpflags).1 = h
    at hcheck ⊢
  have htotal : total h.bytes = total { h with check := 0 }.bytes + h.check.toNat :=
    tcphdr_total h h.check
  have hsize : { h with check := 0 }.bytes.length =
      if details.ip.next_proto = TCP then sizeof_tcphdr else sizeof_udphdr := by
    rw [if_pos hproto]
    rfl
  dsimp only [tcp_chksum] at hcheck
  rw [hcheck] at htotal
  have hsame : h.bytes.length = { h with check := 0 }.bytes.length := rfl
  exact frame_sums hon hver hlen hip hsize hsame htotal front

/-! ## Captures -/

/-- The bytes are a frame with this payload, and its sums are all ones. -/
def Checked (details : connection_details) (payload bytes : List UInt8) : Prop :=
  ∃ f : Frame, f.bytes = bytes ∧ f.payload = payload ∧
    f.Sums details.ip_version details.next_proto

/-- A call appends a frame that is checked. It throws only for a direction that stands for a
tunnel. -/
def Emits (details : connection_details) (in_ : Int) (payload out_buffer : List UInt8) :
    Except error (List UInt8) → Prop
  | .ok out => ∃ frame, out = out_buffer ++ frame ∧ Checked details payload frame
  | .error _ => 1 < in_

/-- The UDP header and the payload that stand in a packet. -/
theorem udp_packet (hon : config.CALCULATE_CHECKSUMS)
    (hver : details.ip_version = 4 ∨ details.ip_version = 6) (hproto : details.next_proto = UDP)
    (hlen : payload.length ≤ 65000) {ip : List UInt8} (hip : Heads details ip) (in_ : Int)
    (front : List UInt8) :
    ∃ rest, (∀ out_buffer, append_UDP_header config out_buffer details in_ payload ++ payload =
        out_buffer ++ rest) ∧ Checked details payload (front ++ ip ++ rest) := by
  have hno : details.next_proto ≠ TCP := by
    rw [hproto]
    decide
  generalize hports : (if in_ ≠ 0 then
    (details.extract_ports.2, details.extract_ports.1) else details.extract_ports) = ports
  let h : udphdr := {
    source := ports.1, dest := ports.2, len := UInt16.ofNat (sizeof_udphdr + payload.length) }
  let l4 := { h with check := L4_chksum config details in_ h.bytes payload }.bytes
  have hsize : h.bytes.length =
      if details.next_proto = TCP then sizeof_tcphdr else sizeof_udphdr := by
    rw [if_neg hno]
    rfl
  have htotal : total l4 = total h.bytes + (L4_chksum config details in_ h.bytes payload).toNat :=
    udphdr_total h _
  have hsame : l4.length = h.bytes.length := rfl
  have hsums := frame_sums hon hver hlen hip hsize hsame htotal front
  refine ⟨l4 ++ payload, fun out_buffer => ?_, _, ?_, rfl, hsums⟩
  · subst hports
    rw [← List.append_assoc]
    rfl
  · simp [Frame.bytes]

variable {now : UInt32 × UInt32} {out_buffer data : List UInt8} {tcpflags : UInt8}

theorem size_taken (data : List UInt8) :
    ¬ (data.length : Int) < 0 ∧ (data.length : Int).toNat = data.length ∧
      data.take data.length = data :=
  ⟨by omega, Int.toNat_natCast _, List.take_length⟩

/-- What stands in front of the IP header. -/
theorem front_appended (details : connection_details) (payload_size : Nat) :
    ∃ front, append_LCC_header (append_PCAP_header now out_buffer details payload_size) details
      in_ = out_buffer ++ front :=
  ⟨_, List.append_assoc ..⟩

/-- The IP header is appended, and then the rest; or the direction is one of a tunnel. -/
theorem emits_of_rest {α : Type} (hon : config.CALCULATE_CHECKSUMS)
    (htun : details.tun_proto ≠ GRE)
    (hver : details.ip_version = 4 ∨ details.ip_version = 6)
    (hproto : details.next_proto = TCP ∨ details.next_proto = UDP) {front : List UInt8}
    {rest : List UInt8 × connection_details → Except error α} {view : α → List UInt8}
    (hrest : ∀ ip ip_id_in ip_id_out, Heads { details with ip_id_in, ip_id_out } ip →
      ∃ frame,
        (rest (out_buffer ++ front ++ ip, { details with ip_id_in, ip_id_out })).map view =
          .ok (out_buffer ++ frame) ∧ Checked details payload frame) :
    Emits details in_ payload out_buffer
      ((append_IP_header config pton (out_buffer ++ front) details in_ n >>= rest).map view) := by
  by_cases hin : in_ ≤ 1
  · obtain ⟨ip, ip_id_in, ip_id_out, happend, hip⟩ :=
      @append_IP_header_plain config details pton in_ n hon htun hver hproto hin
        (out_buffer ++ front)
    obtain ⟨frame, hview, hframe⟩ :=
      hrest ip ip_id_in ip_id_out ⟨hip.size, hip.sum, hip.pseudo⟩
    simp only [happend, bind, Except.bind, hview]
    exact ⟨frame, rfl, hframe⟩
  · obtain ⟨e, he⟩ := @append_IP_header_refused config details pton in_ n htun hver (by omega)
      (out_buffer ++ front)
    rw [he]
    exact Int.not_le.mp hin

theorem append_TCP_frame_emits (hon : config.CALCULATE_CHECKSUMS)
    {details : tcp_details connection_details} (htun : details.ip.tun_proto ≠ GRE)
    (hver : details.ip.ip_version = 4 ∨ details.ip.ip_version = 6)
    (hproto : details.ip.next_proto = TCP) (hlen : data.length ≤ 65000) :
    Emits details.ip in_ data out_buffer
      ((append_TCP_frame config pton now out_buffer data data.length in_ tcpflags details).map
        fun r => r.2.1) := by
  obtain ⟨hsize, hnat, htake⟩ := size_taken data
  obtain ⟨front, hfront⟩ := @front_appended in_ now out_buffer details.ip data.length
  unfold append_TCP_frame
  rw [if_neg hsize, hnat, htake]
  dsimp only
  rw [hfront]
  apply emits_of_rest hon htun hver (Or.inl hproto)
  intro ip ip_id_in ip_id_out hip
  let details' : tcp_details connection_details :=
    { details with
      ip := { details.ip with ip_id_in, ip_id_out }
      sport := details.ip.extract_ports.1
      dport := details.ip.extract_ports.2 }
  have hsums := @tcp_sums config in_ data hon details' hver hproto hlen ip hip tcpflags front
  refine ⟨_, ?_, _, rfl, rfl, hsums⟩
  simp only [Frame.bytes, ← List.append_assoc]
  rfl

theorem append_UDP_frame_emits (hon : config.CALCULATE_CHECKSUMS)
    (htun : details.tun_proto ≠ GRE)
    (hver : details.ip_version = 4 ∨ details.ip_version = 6) (hproto : details.next_proto = UDP)
    (hlen : data.length ≤ 65000) :
    Emits details in_ data out_buffer
      ((append_UDP_frame config pton now out_buffer data data.length in_ details).map
        fun r => r.2.1) := by
  obtain ⟨hsize, hnat, htake⟩ := size_taken data
  obtain ⟨front, hfront⟩ := @front_appended in_ now out_buffer details data.length
  unfold append_UDP_frame
  rw [if_neg hsize, hnat, htake]
  dsimp only
  rw [hfront]
  apply emits_of_rest hon htun hver (Or.inr hproto)
  intro ip ip_id_in ip_id_out hip
  obtain ⟨rest, happend, hchecked⟩ := @udp_packet config { details with ip_id_in, ip_id_out } data
    hon hver hproto hlen ip hip in_ front
  refine ⟨front ++ ip ++ rest, ?_, hchecked⟩
  simp only [pure, Except.pure, Except.map, happend, List.append_assoc]

/-- A block keeps its packet when it is appended. -/
theorem append_packet_data (b : pcapng.pcapng_epb) :
    (b.append now out_buffer).2.2.packet_data = b.packet_data := by
  have hstamp : ∀ b : pcapng.pcapng_epb, (b.timestamp now).packet_data = b.packet_data := by
    intro b
    unfold pcapng.pcapng_epb.timestamp
    split <;> rfl
  unfold pcapng.pcapng_epb.append
  dsimp only
  split
  next => exact hstamp _
  next => exact hstamp _

theorem append_UDP_emits (hon : config.CALCULATE_CHECKSUMS) (htun : details.tun_proto ≠ GRE)
    (hver : details.ip_version = 4 ∨ details.ip_version = 6) (hproto : details.next_proto = UDP)
    (hlen : data.length ≤ 65000) (epb : pcapng.pcapng_epb) :
    Emits details in_ data []
      ((append_UDP config pton now epb out_buffer data data.length in_ details).map
        fun r => r.2.2.1.packet_data.getD []) := by
  obtain ⟨hsize, hnat, htake⟩ := size_taken data
  obtain ⟨front, hfront⟩ : ∃ front, append_LCC_header [] details in_ = [] ++ front := ⟨_, rfl⟩
  unfold append_UDP
  rw [if_neg hsize, hnat, htake]
  dsimp only
  rw [hfront]
  apply emits_of_rest hon htun hver (Or.inr hproto)
  intro ip ip_id_in ip_id_out hip
  obtain ⟨rest, happend, hchecked⟩ := @udp_packet config { details with ip_id_in, ip_id_out } data
    hon hver hproto hlen ip hip in_ front
  refine ⟨front ++ ip ++ rest, ?_, hchecked⟩
  simp only [pure, Except.pure, Except.map, append_packet_data, happend, Option.getD_some,
    List.append_assoc]

/-- Each turn of `append_TCP`, where nothing is thrown, puts such a packet in the block. -/
theorem turn_checked (hon : config.CALCULATE_CHECKSUMS) {s : loop connection_details}
    (htun : s.details.ip.tun_proto ≠ GRE)
    (hver : s.details.ip.ip_version = 4 ∨ s.details.ip.ip_version = 6)
    (hproto : s.details.ip.next_proto = TCP)
    (hlen : (s.cur_data.take s.to_write.toNat).length ≤ 65000) (hin : in_ ≤ 1)
    (data_size : Int) :
    Checked s.details.ip (s.cur_data.take s.to_write.toNat)
      ((turn (tcp_chksum config) (lower_headers config pton) now data_size in_ tcpflags
        s).epb.packet_data.getD []) := by
  obtain ⟨front, hfront⟩ : ∃ front, append_LCC_header [] s.details.ip in_ = front := ⟨_, rfl⟩
  obtain ⟨ip, ip_id_in, ip_id_out, happend, hip⟩ :=
    @append_IP_header_plain config s.details.ip pton in_ s.to_write.toNat hon htun hver
      (Or.inl hproto) hin front
  have hlower : lower_headers config pton s.details.ip in_ s.to_write.toNat =
      (front ++ ip, { s.details.ip with ip_id_in, ip_id_out }) := by
    unfold lower_headers
    rw [hfront, happend]
  have hsums := @tcp_sums config in_ _ hon
    { s.details with ip := { s.details.ip with ip_id_in, ip_id_out } } hver hproto hlen ip
    ⟨hip.size, hip.sum, hip.pseudo⟩ tcpflags front
  refine ⟨_, ?_, rfl, hsums⟩
  unfold turn
  dsimp only
  rw [hlower, append_packet_data]
  rfl

/-- Where checksums are calculated, a frame without a tunnel sums up to ones, its IPv4 header and
its TCP or UDP header behind the pseudo-header, in a file of frames and in a block. -/
theorem checksums_hold (hon : config.CALCULATE_CHECKSUMS) (pton : inet_pton)
    (details : tcp_details connection_details) (htun : details.ip.tun_proto ≠ GRE)
    (hver : details.ip.ip_version = 4 ∨ details.ip.ip_version = 6) (now : UInt32 × UInt32)
    (out_buffer data : List UInt8) (hlen : data.length ≤ 65000) (in_ : Int) (tcpflags : UInt8) :
    (details.ip.next_proto = TCP →
      Emits details.ip in_ data out_buffer
        ((append_TCP_frame config pton now out_buffer data data.length in_ tcpflags details).map
          fun r => r.2.1) ∧
      ∀ (s : loop connection_details) (data_size : Int), s.details = details →
        s.cur_data.take s.to_write.toNat = data → in_ ≤ 1 →
        Checked details.ip data
          ((turn (tcp_chksum config) (lower_headers config pton) now data_size in_ tcpflags
            s).epb.packet_data.getD [])) ∧
    (details.ip.next_proto = UDP →
      Emits details.ip in_ data out_buffer
        ((append_UDP_frame config pton now out_buffer data data.length in_ details.ip).map
          fun r => r.2.1) ∧
      ∀ epb, Emits details.ip in_ data []
        ((append_UDP config pton now epb out_buffer data data.length in_ details.ip).map
          fun r => r.2.2.1.packet_data.getD [])) := by
  constructor
  · intro hproto
    refine ⟨append_TCP_frame_emits hon htun hver hproto hlen, ?_⟩
    rintro s data_size rfl rfl hin
    exact turn_checked hon htun hver hproto hlen hin data_size
  · intro hproto
    exact ⟨append_UDP_frame_emits hon htun hver hproto hlen,
      fun epb => append_UDP_emits hon htun hver hproto hlen epb⟩

/-- A segment of three bytes that comes in over IPv4. -/
theorem checksums_hold_odd :
    let details : tcp_details connection_details := {
      sport := 0, dport := 0, seq_in := 7, seq_out := 9, tcp_lastack_in := 9, tcp_lastack_out := 7
      ip := {
        source := { ss_family := udp.AF_INET, port := 0x3930, word := 0x0100000a }
        destination := { ss_family := udp.AF_INET, port := 0x5000, word := 0x0200000a } } }
    Emits details.ip 1 [0x61, 0x62, 0x63] []
      ((append_TCP_frame { CALCULATE_CHECKSUMS := true }
        { v4 := fun _ => none, v6 := fun _ => none } (5, 0) [] [0x61, 0x62, 0x63] 3 1 TCPFLAG_ACK
        details).map fun r => r.2.1) :=
  ((checksums_hold rfl { v4 := fun _ => none, v6 := fun _ => none } _ (by decide) (by decide) (5, 0)
    [] [0x61, 0x62, 0x63] (by decide) 1 TCPFLAG_ACK).1 rfl).1

end socle.pcap.frames
