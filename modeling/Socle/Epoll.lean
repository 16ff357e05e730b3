-- The poller (common/epoll.cpp, epoll.hpp): the sets that wait fills, the two
-- lists of sockets that are monitored again later, and the two generations of
-- sockets that are watched for being idle. The kernel keeps a mask for each
-- socket that it monitors.
import Mathlib.Tactic
import Socle.Lib.Run

namespace socle.poll

open lib.run

/-! ## Data -/

def EPOLLIN : UInt32 := 0x1
def EPOLLOUT : UInt32 := 0x4
def EPOLLERR : UInt32 := 0x8
def EPOLLHUP : UInt32 := 0x10

def EPOLLER_MAX_EVENTS : Nat := 50

def rescan_msec : Int := 100

/-- A nanosecond is the unit of the clock. -/
def ms : Nat := 1000000

structure epoll_event where
  events : UInt32 := 0
  fd : Int := 0
deriving DecidableEq, Repr

/-- The event carries one of the bits. -/
def epoll_event.has (ev : epoll_event) (bits : UInt32) : Bool :=
  ev.events &&& bits ≠ 0

/-- A set of sockets, as the list of its members. -/
abbrev set_type := List Int

def set_type.erase (s : set_type) (socket : Int) : set_type :=
  s.filter (· ≠ socket)

/-- The array `events`. -/
structure event_array where
  elems : List epoll_event := .replicate EPOLLER_MAX_EVENTS {}
  size : elems.length = EPOLLER_MAX_EVENTS := by exact List.length_replicate

/-- `epoll`. `monitored` is what the kernel monitors for `epoll_fd_`. -/
structure epoll where
  events : event_array := {}
  auto_epollout_remove : Bool := true
  in_set : set_type := []
  out_set : set_type := []
  err_set : set_type := []
  enforce_in_set : set_type := []
  rescan_set_in : set_type := []
  rescan_set_out : set_type := []
  rescan_timer : Nat := 0
  idle_timeout_ms : Int := 1000
  -- incremented each click and reset on trigger
  idle_counter : Int := 0
  -- make it 1, so on start it will flip to 0
  idle_round : Bool := true
  idle_watched_pre : set_type := []
  idle_watched : set_type := []
  idle_set : set_type := []
  monitored : Int → Option UInt32 := fun _ => none

namespace epoll

/-! ## Monitoring -/

/-- `add`. A socket that is there already (`EEXIST`) stays as it is. -/
def add (socket : Int) (mask : UInt32) (e : epoll) : epoll :=
  match e.monitored socket with
  | some _ => e
  | none => { e with monitored := Function.update e.monitored socket (some mask) }

/-- `modify`. A socket that is not there (`ENOENT`) is added. -/
def modify (socket : Int) (mask : UInt32) (e : epoll) : epoll :=
  match e.monitored socket with
  | some _ => { e with monitored := Function.update e.monitored socket (some mask) }
  | none => e.add socket mask

def del (socket : Int) (e : epoll) : epoll :=
  { e with monitored := Function.update e.monitored socket none }

/-- `rescan_in`, at the time `now`. -/
def rescan_in (now : Nat) (socket : Int) (e : epoll) : epoll :=
  if socket > 0 then
    let e := e.del socket
    { e with
      -- re-init timer, otherwise let it be
      rescan_timer := if e.rescan_set_in = [] then now else e.rescan_timer
      rescan_set_in := e.rescan_set_in.insert socket }
  else e

def rescan_out (now : Nat) (socket : Int) (e : epoll) : epoll :=
  if socket > 0 then
    let e := e.del socket
    { e with
      rescan_timer := if e.rescan_set_out = [] then now else e.rescan_timer
      rescan_set_out := e.rescan_set_out.insert socket }
  else e

def cancel_rescan_in (socket : Int) (e : epoll) : epoll :=
  if socket > 0 then { e with rescan_set_in := set_type.erase e.rescan_set_in socket } else e

def cancel_rescan_out (socket : Int) (e : epoll) : epoll :=
  if socket > 0 then { e with rescan_set_out := set_type.erase e.rescan_set_out socket } else e

def enforce_in (socket : Int) (e : epoll) : epoll :=
  if socket > 0 then { e with enforce_in_set := e.enforce_in_set.insert socket } else e

/-! ## Idle sockets -/

def set_idle_watch (check : Int) (e : epoll) : epoll :=
  { e with idle_watched_pre := e.idle_watched_pre.insert check }

/-- `clear_idle_watch`: only a socket that is not in the younger set is looked up in the older. -/
def clear_idle_watch (check : Int) (e : epoll) : epoll :=
  if check ∈ e.idle_watched_pre then
    { e with idle_watched_pre := set_type.erase e.idle_watched_pre check }
  else { e with idle_watched := set_type.erase e.idle_watched check }

def process_pre_wait_idles (e : epoll) : epoll :=
  if e.idle_counter > e.idle_timeout_ms then
    let e := { e with idle_counter := 0, idle_round := !e.idle_round }
    if !e.idle_round then
      { e with
        idle_watched := e.idle_watched_pre.foldl (fun w s => w.insert s) e.idle_watched
        idle_watched_pre := [] }
    else
      { e with
        idle_set := e.idle_watched.foldl (fun w s => w.insert s) e.idle_set
        idle_watched := [] }
  else e

/-! ## Waiting -/

def process_pre_wait_rescans (e : epoll) : epoll :=
  let e := { e.rescan_set_in.foldl (fun e isock => e.add isock EPOLLIN) e with rescan_set_in := [] }
  { e.rescan_set_out.foldl (fun e osock => e.add osock (EPOLLIN ||| EPOLLOUT)) e with
    rescan_set_out := [] }

/-- The milliseconds since the timer was set. -/
def ms_diff (now : Nat) (e : epoll) : Int :=
  ((now - e.rescan_timer) / ms : Nat)

def click_timer_now (now : Nat) (e : epoll) : Bool × epoll :=
  if e.ms_diff now > rescan_msec then
    (true, { e with rescan_timer := now, idle_counter := e.idle_counter + e.ms_diff now })
  else (false, e)

def clear (e : epoll) : epoll :=
  { e with in_set := [], out_set := [], idle_set := [], err_set := [] }

/-- The part of `wait` in front of `epoll_wait`. -/
def pre_wait (now : Nat) (e : epoll) : epoll :=
  let (click, e) := e.clear.click_timer_now now
  if click then e.process_pre_wait_rescans.process_pre_wait_idles else e

/-- One turn of the loop of `process_epoll_events`. -/
def on_event (ev : epoll_event) (e : epoll) : epoll :=
  if ev.has EPOLLIN then
    { e with in_set := e.in_set.insert ev.fd }.clear_idle_watch ev.fd
  else if ev.has EPOLLOUT then
    let e := { e with out_set := e.out_set.insert ev.fd }.clear_idle_watch ev.fd
    if e.auto_epollout_remove then e.modify ev.fd EPOLLIN else e
  else
    -- an error, a hang-up or an uncaught event value
    { e with err_set := e.err_set.insert ev.fd }

def enforced_to_inset (e : epoll) : epoll :=
  { e with
    in_set := e.enforce_in_set.foldl (fun w s => w.insert s) e.in_set
    enforce_in_set := [] }

/-- `in_write_set`, which looks into no set. -/
def in_write_set (_ : Int) (_ : epoll) : Bool := true

/-- `events[i]`. What stands behind the array is not known. -/
def event (behind : Nat → epoll_event) (e : epoll) (i : Nat) : epoll_event :=
  e.events.elems.getD i (behind i)

def process_epoll_events (behind : Nat → epoll_event) (nfds : Nat) (e : epoll) : epoll :=
  ((List.range nfds).map (e.event behind)).foldl (fun e ev => e.on_event ev) e

end epoll

/-- What `epoll_wait` reports, which fits into the array. -/
abbrev report := { ready : List epoll_event // ready.length ≤ EPOLLER_MAX_EVENTS }

/-- `epoll_wait` writes the events into the front of the array. -/
def event_array.fill (ready : report) (a : event_array) : event_array where
  elems := ready.1 ++ a.elems.drop ready.1.length
  size := by
    rw [List.length_append, List.length_drop, a.size]
    exact Nat.add_sub_of_le ready.2

/-- What `epoll_wait` returns. -/
inductive wait_result
  | ready (events : report)
  | error (eintr : Bool)

/-- A round of the loop of `wait`: what was reported, and what was read from the array, with its
index. -/
structure round where
  ready : report
  used : List (Nat × epoll_event)

namespace epoll

/-- The loop of `wait`, with the results of the calls of `epoll_wait`. It gives nothing when it is
still waiting. -/
def wait_loop (behind : Nat → epoll_event) :
    List wait_result → Nat → epoll → Option (Int × epoll × List round)
  | [], _, _ => none
  | .error eintr :: _, nfds, e => some (if eintr then nfds else -1, e, [])
  | .ready ready :: rest, nfds, e =>
    let nfds := nfds + ready.1.length
    let e := { e with events := e.events.fill ready }
    let r := { ready, used := (List.range nfds).map fun i => (i, e.event behind i) }
    let e := e.process_epoll_events behind nfds
    if ready.1.length = EPOLLER_MAX_EVENTS then
      (wait_loop behind rest nfds e).map fun (ret, e, rounds) => (ret, e, r :: rounds)
    else some (nfds, e.enforced_to_inset, [r])

/-- `wait`, at the time `now`. -/
def wait (behind : Nat → epoll_event) (now : Nat) (results : List wait_result) (e : epoll) :
    Option (Int × epoll × List round) :=
  wait_loop behind results 0 (e.pre_wait now)

end epoll

/-! ## Sets that grow -/

/-- What a set has after turns of a loop, each of which puts at most one socket into it. -/
theorem mem_foldl_put {σ β : Type} {turn : σ → β → σ} {S : σ → set_type} {f : β → Int}
    {c : β → Prop} [DecidablePred c]
    (hturn : ∀ e b, S (turn e b) = if c b then (S e).insert (f b) else S e)
    (bs : List β) (e : σ) (s : Int) :
    s ∈ S (bs.foldl turn e) ↔ s ∈ S e ∨ ∃ b ∈ bs, f b = s ∧ c b := by
  induction bs generalizing e with
  | nil => simp
  | cons b rest ih =>
    rw [List.foldl_cons, ih, hturn, List.exists_mem_cons_iff]
    by_cases hc : c b
    · rw [if_pos hc, List.mem_insert_iff, eq_comm]
      simp only [hc, and_true]
      tauto
    · rw [if_neg hc]
      simp only [hc, and_false, false_or]

/-! ## Runs -/

/-- An idle socket as it was reported: when it was put under watch, if it still was under watch,
whether an event came for it since then, and the time of the report. -/
structure idle_report where
  socket : Int
  watched_at : Option Nat
  disturbed : Bool
  now : Nat

/-- A poller and its past. No function of the code reads more than `epoll` and the clock. -/
structure Poller where
  epoll : epoll := {}
  now : Nat := 0
  -- what was asked for by rescan_in and rescan_out and not cancelled, and what was due last
  asked : List (Int × UInt32) := []
  due : List (Int × UInt32) := []
  -- the last set_idle_watch of a socket, as long as its watch is not cleared
  watched_at : Int → Option Nat := fun _ => none
  disturbed : Int → Bool := fun _ => false
  idled : List idle_report := []

/-- A new poller with its two settings. -/
def Poller.start (now : Nat) (auto_epollout_remove : Bool) (idle_timeout_ms : Int) : Poller :=
  { epoll := { auto_epollout_remove, idle_timeout_ms }, now }

inductive operation
  | add (socket : Int) (mask : UInt32)
  | modify (socket : Int) (mask : UInt32)
  | del (socket : Int)
  | rescan_in (socket : Int)
  | rescan_out (socket : Int)
  | cancel_rescan_in (socket : Int)
  | cancel_rescan_out (socket : Int)
  | enforce_in (socket : Int)
  | set_idle_watch (check : Int)
  | clear_idle_watch (check : Int)
  -- the clock
  | advance (ns : Nat)
  -- the steps of `wait`
  | pre_wait
  | epoll_wait (ready : report)
  | event (ev : epoll_event)
  | enforced_to_inset

namespace Poller

/-- The mask that is asked for with a rescan of `socket`, if the socket is one. -/
def ask (socket : Int) (mask : UInt32) (p : Poller) : List (Int × UInt32) :=
  if socket > 0 then p.asked.insert (socket, mask) else p.asked

def withdraw (socket : Int) (mask : UInt32) (p : Poller) : List (Int × UInt32) :=
  if socket > 0 then p.asked.filter (· ≠ (socket, mask)) else p.asked

/-- `wait` looks at the timers now, and goes through the two lists. -/
def clicks (p : Poller) : Bool :=
  (p.epoll.clear.click_timer_now p.now).1

def reported (p : Poller) (socket : Int) : idle_report :=
  { socket, watched_at := p.watched_at socket, disturbed := p.disturbed socket, now := p.now }

end Poller

open Poller in
def step (p : Poller) : operation → Option Poller
  | .add socket mask => some { p with epoll := p.epoll.add socket mask, due := [] }
  | .modify socket mask => some { p with epoll := p.epoll.modify socket mask, due := [] }
  | .del socket => some { p with epoll := p.epoll.del socket, due := [] }
  | .rescan_in socket =>
    some { p with epoll := p.epoll.rescan_in p.now socket, asked := p.ask socket EPOLLIN, due := [] }
  | .rescan_out socket =>
    some { p with
      epoll := p.epoll.rescan_out p.now socket
      asked := p.ask socket (EPOLLIN ||| EPOLLOUT)
      due := [] }
  | .cancel_rescan_in socket =>
    some { p with
      epoll := p.epoll.cancel_rescan_in socket
      asked := p.withdraw socket EPOLLIN
      due := [] }
  | .cancel_rescan_out socket =>
    some { p with
      epoll := p.epoll.cancel_rescan_out socket
      asked := p.withdraw socket (EPOLLIN ||| EPOLLOUT)
      due := [] }
  | .enforce_in socket => some { p with epoll := p.epoll.enforce_in socket, due := [] }
  | .set_idle_watch check =>
    some { p with
      epoll := p.epoll.set_idle_watch check
      watched_at := Function.update p.watched_at check (some p.now)
      disturbed := Function.update p.disturbed check false
      due := [] }
  | .clear_idle_watch check =>
    some { p with
      epoll := p.epoll.clear_idle_watch check
      watched_at := Function.update p.watched_at check none
      due := [] }
  | .advance ns => some { p with now := p.now + ns, due := [] }
  | .pre_wait =>
    let epoll := p.epoll.pre_wait p.now
    some { p with
      epoll
      asked := if p.clicks then [] else p.asked
      due := if p.clicks then p.asked else []
      idled := epoll.idle_set.map p.reported }
  | .epoll_wait ready =>
    some { p with epoll := { p.epoll with events := p.epoll.events.fill ready }, due := [] }
  | .event ev =>
    some { p with
      epoll := p.epoll.on_event ev
      -- a read or write event clears the watch
      watched_at :=
        if ev.has (EPOLLIN ||| EPOLLOUT) then Function.update p.watched_at ev.fd none
        else p.watched_at
      disturbed := Function.update p.disturbed ev.fd true
      due := [] }
  | .enforced_to_inset => some { p with epoll := p.epoll.enforced_to_inset, due := [] }

end socle.poll
