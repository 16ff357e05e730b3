-- The sockets of a proxy and their write bottlenecks (baseproxy.cpp,
-- hostcx.cpp): a write that leaves bytes pauses the reading from the other
-- side, until the bytes are written.
import Mathlib.Logic.Function.Basic
import Socle.Epoll

namespace socle.bottleneck

open lib.run poll

/-! ## Data -/

inductive hand
  | left
  | right
deriving DecidableEq, Repr

def hand.other : hand → hand
  | left => right
  | right => left

/-- The letter of a side: `x` and `y` are the permanent sockets of the left and the right. -/
inductive side
  | l
  | r
  | x
  | y
deriving DecidableEq, Repr

def side.hand : side → hand
  | l => .left
  | r => .right
  | x => .left
  | y => .right

/-- The sockets of a side: `left_sockets`, `left_bind_sockets` and `left_pc_cx` of the left. -/
structure vectors where
  sockets : List Int := []
  bind_sockets : List Int := []
  pc_cx : List Int := []

namespace vectors

/-- The sockets that carry bytes. -/
def connected (v : vectors) : List Int := v.sockets ++ v.pc_cx

/-- The sockets that `change_side_monitoring` changes. -/
def changed (v : vectors) : List Int := v.sockets ++ v.bind_sockets

def all (v : vectors) : List Int := v.sockets ++ v.bind_sockets ++ v.pc_cx

end vectors

/-- The open sockets of both sides. No socket is on both. -/
structure sockets where
  of : hand → vectors
  positive : ∀ h, ∀ s ∈ (of h).all, 0 < s
  apart : ∀ s ∈ (of .left).all, s ∉ (of .right).all

def sockets.handled (v : sockets) : side → List Int
  | .l => (v.of .left).sockets
  | .r => (v.of .right).sockets
  | .x => (v.of .left).pc_cx
  | .y => (v.of .right).pc_cx

/-- `writebuf` is the number of bytes in the write buffer, and `peer` the socket of the peer's com.
No function of the code reads `left_over`, the bytes that the last attempt to write left. -/
structure HostCX where
  writebuf : Nat := 0
  read_waiting_for_peercom_ : Bool := false
  write_waiting_for_peercom_ : Bool := false
  rescan_out_flag_ : Bool := false
  error : Bool := false
  peer : Option Int := none
  com_not_ready_counter : UInt16 := 0
  left_over : Nat := 0

def com_not_ready_slowdown : UInt16 := 20

/-- The sockets with their contexts, and `write_left_neck_` and `write_right_neck_`. -/
structure baseProxy where
  cx : Int → HostCX := fun _ => {}
  poller : epoll := {}
  neck : hand → Bool := fun _ => false

/-! ## Monitors -/

def set_monitor (s : Int) (e : epoll) : epoll :=
  if s > 0 then e.add s EPOLLIN else e

def set_write_monitor (s : Int) (e : epoll) : epoll :=
  if s > 0 then e.modify s (EPOLLIN ||| EPOLLOUT) else e

def change_monitor (s : Int) (new_mode : UInt32) (e : epoll) : epoll :=
  if s > 0 then e.modify s new_mode else e

def unset_monitor (s : Int) (e : epoll) : epoll :=
  if s > 0 then ((e.del s).cancel_rescan_in s).cancel_rescan_out s else e

def rescan_read (now : Nat) (s : Int) (e : epoll) : epoll :=
  if s > 0 then e.rescan_in now s else e

def rescan_write (now : Nat) (s : Int) (e : epoll) : epoll :=
  if s > 0 then e.rescan_out now s else e

/-- The write monitor of `s` is on. -/
def write_monitored (e : epoll) (s : Int) : Bool :=
  (e.monitored s).any fun mask => mask &&& EPOLLOUT ≠ 0

/-! ## What the system answers -/

/-- The clock, and the `com_status` of the peers. -/
structure moment where
  now : Nat := 0
  com_status : Int → Bool := fun _ => true

/-- A call of `read`: what `readable` gives, whether the write buffer of the peer is over
`write_full`, the bytes that `io_read` gives (none is -1), and the calls of `to_write` in
`on_left_bytes` or `on_right_bytes`. -/
structure read_io where
  readable : Bool := true
  peer_full : Bool := false
  red : Nat := 0
  bytes : List (Int × Nat) := []

/-- A call of `write`: what `writable` gives, and the bytes that `io_write` would take. -/
structure write_io where
  writable : Bool := true
  sent : Nat := 0

structure reading where
  in_readset : Bool := true
  forced_read : Bool := false
  read : read_io := {}
  forced_write_on_read : Option write_io := none

structure writing where
  in_writeset : Bool := true
  forced_write : Bool := false
  write : write_io := {}
  forced_read_on_write : Option read_io := none

namespace baseProxy

def modify (s : Int) (f : HostCX → HostCX) (p : baseProxy) : baseProxy :=
  { p with cx := Function.update p.cx s (f (p.cx s)) }

def poll (f : epoll → epoll) (p : baseProxy) : baseProxy :=
  { p with poller := f p.poller }

def write_bottleneck (h : hand) (b : Bool) (p : baseProxy) : baseProxy :=
  { p with neck := Function.update p.neck h b }

/-! ## A socket -/

def read_waiting_for_peercom (m : moment) (s : Int) (p : baseProxy) : Bool × baseProxy :=
  match (p.cx s).read_waiting_for_peercom_, (p.cx s).peer with
  | true, some peercom =>
    if m.com_status peercom then
      (false, p.modify s fun cx =>
        { cx with read_waiting_for_peercom_ := false, com_not_ready_counter := 0 })
    else
      let counter := (p.cx s).com_not_ready_counter + 1
      (true, (p.modify s fun cx => { cx with com_not_ready_counter := counter }).poll
        (if counter > com_not_ready_slowdown then rescan_read m.now peercom
          else set_monitor peercom))
  | waiting, _ => (waiting, p)

def write_waiting_for_peercom (m : moment) (s : Int) (p : baseProxy) : Bool × baseProxy :=
  match (p.cx s).write_waiting_for_peercom_, (p.cx s).peer with
  | true, some peercom =>
    if m.com_status peercom then
      (false, p.modify s fun cx =>
        { cx with write_waiting_for_peercom_ := false, com_not_ready_counter := 0 })
    else
      let counter := (p.cx s).com_not_ready_counter + 1
      (true, (p.modify s fun cx => { cx with com_not_ready_counter := counter }).poll
        (if counter > com_not_ready_slowdown then rescan_write m.now peercom
          else set_write_monitor peercom))
  | true, none => (true, p.modify s fun cx => { cx with error := true })
  | false, _ => (false, p)

/-- `baseHostCX::read`. Nothing is read while the peer has much to write. -/
def read (m : moment) (s : Int) (io : read_io) (p : baseProxy) : Nat × baseProxy :=
  let (waiting, p) := p.read_waiting_for_peercom m s
  if waiting then (0, p)
  else if (p.cx s).peer.isSome && io.peer_full then (0, p.poll (rescan_read m.now s))
  else (io.red, p)

def to_write (p : baseProxy) (b : Int × Nat) : baseProxy :=
  (p.modify b.1 fun cx => { cx with writebuf := cx.writebuf + b.2 }).poll (set_write_monitor b.1)

def write (m : moment) (s : Int) (io : write_io) (p : baseProxy) : baseProxy :=
  let (waiting, p) := p.write_waiting_for_peercom m s
  if waiting then p
  else
    let size := (p.cx s).writebuf
    let l := min io.sent size
    if l > 0 then
      let p :=
        if l < size then
          -- we need to check once more when socket is fully writable
          (p.modify s fun cx => { cx with rescan_out_flag_ := true }).poll (set_write_monitor s)
        else if (p.cx s).rescan_out_flag_ then
          (p.modify s fun cx => { cx with rescan_out_flag_ := false }).poll (change_monitor s EPOLLIN)
        else p
      p.modify s fun cx => { cx with writebuf := cx.writebuf - l }
    else if size ≠ 0 then
      -- write was not successful, wait a while
      (p.modify s fun cx => { cx with rescan_out_flag_ := true }).poll (rescan_write m.now s)
    else p

/-! ## The handlers -/

/-- `handle_cx_read`, which may be forced by a write. -/
def handle_cx_read (m : moment) (s : Int) (io : read_io) (forced : Bool) (p : baseProxy) :
    baseProxy :=
  if io.readable || forced then
    let (red, p) := p.read m s io
    if red > 0 then io.bytes.foldl to_write p else p
  else p

/-- `handle_cx_write`, which may be forced by a read. It is the attempt to write. -/
def handle_cx_write (m : moment) (s : Int) (io : write_io) (forced : Bool) (p : baseProxy) :
    baseProxy :=
  let p := if io.writable || forced then p.write m s io else p
  p.modify s fun cx => { cx with left_over := cx.writebuf }

def handle_cx_read_once (d : side) (m : moment) (s : Int) (io : reading) (p : baseProxy) :
    baseProxy :=
  let dont_read := p.neck d.hand.other
  let (waiting, p) := p.read_waiting_for_peercom m s
  if !waiting && !dont_read then
    if p.poller.in_set.contains s || io.forced_read then
      let p := p.handle_cx_read m s io.read false
      match io.forced_write_on_read with
      | some w => p.handle_cx_write m s w true
      | none => p
    else p
  else p

/-- One turn of the loop of `change_monitor_for_cx_vec`. -/
def change_monitor_for_cx (ifread ifwrite : Bool) (pause_read pause_write : Int) (p : baseProxy)
    (s : Int) : baseProxy :=
  let p := p.poll
    (if ifread && ifwrite then change_monitor s (EPOLLIN ||| EPOLLOUT)
      else if ifread then change_monitor s EPOLLIN
      else if ifwrite then change_monitor s EPOLLOUT
      else unset_monitor s)
  let p :=
    if pause_read ≠ 0 then
      p.modify s fun cx => { cx with read_waiting_for_peercom_ := pause_read > 0 }
    else p
  if pause_write ≠ 0 then
    p.modify s fun cx => { cx with write_waiting_for_peercom_ := pause_write > 0 }
  else p

def change_monitor_for_cx_vec (cx_vec : List Int) (ifread ifwrite : Bool)
    (pause_read pause_write : Int) (p : baseProxy) : baseProxy :=
  cx_vec.foldl (change_monitor_for_cx ifread ifwrite pause_read pause_write) p

/-- `change_side_monitoring`. The permanent sockets stay as they are. -/
def change_side_monitoring (v : vectors) (ifread ifwrite : Bool) (pause_read pause_write : Int)
    (p : baseProxy) : baseProxy :=
  let p := p.change_monitor_for_cx_vec v.sockets ifread ifwrite pause_read pause_write
  p.change_monitor_for_cx_vec v.bind_sockets ifread ifwrite pause_read pause_write

def handle_cx_write_once (v : sockets) (d : side) (m : moment) (s : Int) (io : writing)
    (p : baseProxy) : baseProxy :=
  let (waiting, p) := p.write_waiting_for_peercom m s
  if waiting then p
  else if p.poller.in_write_set s || io.forced_write || (p.cx s).writebuf ≠ 0 then
    let orig_bytes_sz := (p.cx s).writebuf
    let p := p.handle_cx_write m s io.write false
    let pending_bytes_sz := (p.cx s).writebuf
    let p :=
      match io.forced_read_on_write with
      | some r => p.handle_cx_read m s r true
      | none => p
    if orig_bytes_sz > 0 then
      if pending_bytes_sz > 0 then
        -- on bottleneck, we monitor write on this socket to flush buffered data
        let p := (p.poll (set_write_monitor s)).write_bottleneck d.hand true
        let p := p.change_side_monitoring (v.of d.hand.other) false false 1 0
        p.change_side_monitoring (v.of d.hand) true true (-1) (-1)
      else if p.neck d.hand then
        (p.write_bottleneck d.hand false).change_side_monitoring (v.of d.hand.other) true false (-1) 0
      else p
    else p
  else p

/-- The poller has reported no other socket, and `s` when there is an event. -/
def report (bits : UInt32) (event : Bool) (s : Int) (p : baseProxy) : baseProxy :=
  p.poll fun e => if event then e.clear.on_event { events := bits, fd := s } else e.clear

end baseProxy

/-! ## Runs -/

/-- A proxy, and the proxy before its last step. -/
structure Proxy where
  proxy : baseProxy
  before : baseProxy

inductive operation
  | pre_wait (now : Nat)
  | read (d : side) (s : Int) (m : moment) (io : reading)
  | write (d : side) (s : Int) (m : moment) (io : writing)

/-- The poller starts to wait, or a handler is called for a socket of its side, with what the poller
has reported of the socket. -/
def step (v : sockets) (c : Proxy) : operation → Option Proxy
  | .pre_wait now => some { proxy := c.proxy.poll (·.pre_wait now), before := c.proxy }
  | .read d s m io =>
    if s ∈ v.handled d then
      some {
        proxy := (c.proxy.report EPOLLIN io.in_readset s).handle_cx_read_once d m s io
        before := c.proxy }
    else none
  | .write d s m io =>
    if s ∈ v.handled d then
      some {
        proxy := (c.proxy.report EPOLLOUT io.in_writeset s).handle_cx_write_once v d m s io
        before := c.proxy }
    else none

/-- Nothing was written so far and nobody is paused. There may be bytes to write. -/
def start (writebuf : Int → Nat) (peer : Int → Option Int) (poller : epoll) : Proxy :=
  let p : baseProxy := { cx := fun s => { writebuf := writebuf s, peer := peer s }, poller }
  { proxy := p, before := p }

end socle.bottleneck
