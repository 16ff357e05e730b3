-- TCP data in a capture (append_TCP of pcapapi.cpp): how they are cut into
-- frames, and the sequence numbers of the frames. The headers below TCP are a
-- parameter, with the part of the details that they need.
import Socle.Lib.Bytes
import Socle.Lib.Run
import Socle.Pcapng

namespace socle.pcap

open lib.run pcapng

/-! ## Data -/

def TCPFLAG_SYN : UInt8 := 0x1
def TCPFLAG_FIN : UInt8 := 0x2
def TCPFLAG_ACK : UInt8 := 0x4

/-- `tcphdr`, with the fields that are not always 0. -/
structure tcphdr where
  source : UInt16 := 0
  dest : UInt16 := 0
  seq : UInt32 := 0
  ack_seq : UInt32 := 0
  doff : Nat := 0
  fin : Bool := false
  syn : Bool := false
  ack : Bool := false
  window : UInt16 := 0
  check : UInt16 := 0
deriving DecidableEq

/-- The header as it stands in the packet, in network order. -/
def tcphdr.bytes (h : tcphdr) : List UInt8 :=
  lib.bytes.u16 h.source.toNat ++ lib.bytes.u16 h.dest.toNat ++ lib.bytes.u32 h.seq.toNat ++
    lib.bytes.u32 h.ack_seq.toNat ++
    [UInt8.ofNat (h.doff * 16),
      UInt8.ofNat (h.fin.toNat + 2 * h.syn.toNat + 16 * h.ack.toNat)] ++
    lib.bytes.u16 h.window.toNat ++ lib.bytes.u16 h.check.toNat ++ lib.bytes.u16 0

/-- `tcp_details`. `ip` is what the headers below TCP are made from. -/
structure tcp_details (ι : Type) where
  sport : UInt16
  dport : UInt16
  seq_in : UInt32
  seq_out : UInt32
  tcp_lastack_in : UInt32
  tcp_lastack_out : UInt32
  max_data_size : Int := 1380
  ip : ι

/-- A frame that was appended. No function of the code keeps it. -/
structure segment where
  in_ : Int
  header : tcphdr
  payload : List UInt8

/-! ## Headers -/

variable {ι : Type}

section
variable (L4_chksum : ι → Int → tcphdr → List UInt8 → UInt16)

/-- `append_TCP_header`: the header that it appends, and the details. -/
def append_TCP_header (details : tcp_details ι) (in_ : Int) (payload : List UInt8)
    (tcpflags : UInt8) : tcphdr × tcp_details ι :=
  let h : tcphdr := {
    syn := tcpflags &&& TCPFLAG_SYN ≠ 0
    fin := tcpflags &&& TCPFLAG_FIN ≠ 0
    ack := tcpflags &&& TCPFLAG_ACK ≠ 0 ∨ tcpflags = 0 }
  let step := UInt32.ofNat (if h.syn ∨ h.fin then 1 else payload.length)
  let (h, details) :=
    if in_ ≠ 0 then
      let h := { h with
        source := details.dport
        dest := details.sport
        -- seq counts data in the direction we're sending
        seq := details.seq_in
        ack_seq := details.seq_out
        -- ack-seq is the seq+size of the last packet we saw going the other way
        ack := h.ack ∨ details.seq_out ≠ details.tcp_lastack_in ∧ tcpflags &&& TCPFLAG_SYN = 0 }
      (h, { details with
        seq_in := details.seq_in + step
        tcp_lastack_in := details.seq_out })
    else
      let h := { h with
        source := details.sport
        dest := details.dport
        seq := details.seq_out
        ack_seq := details.seq_in
        ack := h.ack ∨ details.seq_in ≠ details.tcp_lastack_out ∧ tcpflags &&& TCPFLAG_SYN = 0 }
      (h, { details with
        seq_out := details.seq_out + step
        tcp_lastack_out := details.seq_in })
  -- no options
  let h := { h with doff := 5, window := 32768, check := 0 }
  ({ h with check := L4_chksum details.ip in_ h payload }, details)

/-! ## Segmentation -/

variable (headers : ι → Int → Nat → List UInt8 × ι) (now : UInt32 × UInt32)

/-- The variables of the loop of `append_TCP`. -/
structure loop (ι : Type) where
  epb : pcapng_epb
  out_buffer : List UInt8
  details : tcp_details ι
  data_written : Int
  cur_data : List UInt8
  to_write : Int
  frames : List segment

/-- One turn of the loop. -/
def turn (data_size : Int) (in_ : Int) (tcpflags : UInt8) (s : loop ι) : loop ι :=
  let payload := s.cur_data.take s.to_write.toNat
  let (lower, ip) := headers s.details.ip in_ s.to_write.toNat
  let (h, details) :=
    append_TCP_header L4_chksum { s.details with ip } in_ payload tcpflags
  let epb := { s.epb with packet_data := some (lower ++ h.bytes ++ payload) }
  let (_, out_buffer, epb) := epb.append now s.out_buffer
  let data_written := s.data_written + s.to_write
  { epb
    out_buffer
    details
    data_written
    cur_data := s.cur_data.drop s.to_write.toNat
    to_write := min s.to_write (data_size - data_written)
    frames := s.frames ++ [{ in_, header := h, payload }] }

/-- The loop, with a number of turns that it may take. -/
def append_TCP_loop (data_size : Int) (in_ : Int) (tcpflags : UInt8) :
    Nat → loop ι → Option (loop ι)
  | 0, _ => none
  | n + 1, s =>
    let s := turn L4_chksum headers now data_size in_ tcpflags s
    if s.data_written < data_size then append_TCP_loop data_size in_ tcpflags n s else some s

/-- `append_TCP`: what it returns, and the state behind the loop. `none` when the loop takes more
turns than `turns`. -/
def append_TCP (turns : Nat) (epb : pcapng_epb) (out_buffer data : List UInt8) (data_size : Int)
    (in_ : Int) (tcpflags : UInt8) (details : tcp_details ι) : Option (Int × loop ι) :=
  let to_write := if details.max_data_size ≤ 0 then data_size else min details.max_data_size data_size
  let s : loop ι :=
    { epb, out_buffer, details, data_written := 0, cur_data := data, to_write, frames := [] }
  if data_size < 0 then some (-1, s)
  else
    (append_TCP_loop L4_chksum headers now data_size in_ tcpflags turns s).map fun s =>
      (s.out_buffer.length, s)

/-! ## Runs -/

/-- A call of `append_TCP` with a frame object of any state. A SYN or FIN frame has no data. -/
structure call where
  epb : pcapng_epb := {}
  now : UInt32 × UInt32
  data : List UInt8
  in_ : Int
  tcpflags : UInt8
  max_data_size : Int
  bare : tcpflags &&& TCPFLAG_SYN ≠ 0 ∨ tcpflags &&& TCPFLAG_FIN ≠ 0 → data = []

/-- The details of a connection, the buffer, and for each call the frames that it appended. -/
structure Capture (ι : Type) where
  details : tcp_details ι
  out_buffer : List UInt8
  log : List (call × List segment) := []

def step (s : Capture ι) (c : call) : Option (Capture ι) :=
  (append_TCP L4_chksum headers c.now (c.data.length + 1) c.epb s.out_buffer c.data c.data.length
      c.in_ c.tcpflags { s.details with max_data_size := c.max_data_size }).map fun r =>
    { details := r.2.details
      out_buffer := r.2.out_buffer
      log := s.log ++ [(c, r.2.frames)] }

end

/-! ## The law -/

/-- The direction: data come in, or go out. -/
def inward (in_ : Int) : Bool :=
  in_ ≠ 0

/-- The sequence number that comes next in a direction. -/
def tcp_details.seq (d : tcp_details ι) (dir : Bool) : UInt32 :=
  if dir then d.seq_in else d.seq_out

/-- What a frame takes of the sequence: its payload, and one for SYN or FIN. -/
def segment.weight (f : segment) : Nat :=
  f.payload.length + if f.header.syn ∨ f.header.fin then 1 else 0

/-- What the frames of one direction take. -/
def sent (dir : Bool) (frames : List segment) : Nat :=
  ((frames.filter fun f => inward f.in_ = dir).map segment.weight).sum

/-- Each frame has the first number of its direction and what was sent before it, and acknowledges
what was sent the other way. -/
def Numbered (first : tcp_details ι) (frames : List segment) : Prop :=
  ∀ before f after, frames = before ++ f :: after →
    f.header.seq = first.seq (inward f.in_) + UInt32.ofNat (sent (inward f.in_) before) ∧
      f.header.ack_seq = first.seq (!inward f.in_) + UInt32.ofNat (sent (!inward f.in_) before)

def Capture.frames (s : Capture ι) : List segment :=
  s.log.flatMap Prod.snd

/-- The frames of a capture cut the data of its calls. -/
structure Segmented (first : tcp_details ι) (s : Capture ι) : Prop where
  payloads : ∀ dir, (s.frames.filter fun f => inward f.in_ = dir).flatMap segment.payload =
    ((s.log.map Prod.fst).filter fun c => inward c.in_ = dir).flatMap call.data
  bounded : ∀ e ∈ s.log, e.1.max_data_size > 0 → ∀ f ∈ e.2, f.payload.length ≤ e.1.max_data_size
  empty : ∀ e ∈ s.log, e.1.data = [] → e.2.length = 1
  numbers : Numbered first s.frames

/-! ## One frame -/

/-- The numbers so far, and those that come next. -/
structure Follows (first details : tcp_details ι) (frames : List segment) : Prop where
  numbered : Numbered first frames
  next : ∀ dir, details.seq dir = first.seq dir + UInt32.ofNat (sent dir frames)

section
variable (L4_chksum : ι → Int → tcphdr → List UInt8 → UInt16)

variable (headers : ι → Int → Nat → List UInt8 × ι) (now : UInt32 × UInt32)
variable {first : tcp_details ι} {past : List segment} {data : List UInt8} {in_ : Int}
  {tcpflags : UInt8} {m : Int}

/-- The law, and the numbers that come next. -/
structure Goes (first : tcp_details ι) (s : Capture ι) : Prop where
  law : Segmented first s
  follows : Follows first s.details s.frames

end

end socle.pcap
