-- The sub-proxies of a MasterProxy (masterproxy.cpp: run_timers, thread_finish,
-- handle_sockets_once). Their handlers run in the caller or in threads of their
-- own, and the loops over the list wait for a flag that a handler resets.
import Mathlib.Tactic
import Socle.Lib.Loop

namespace socle.master

open lib.loop

/-! ## Data -/

/-- How a handler ends: it returns and may have made its proxy dead, or it throws. -/
inductive handler_end
  | returns (dead : Bool)
  | throws
deriving DecidableEq, Repr

/-- `handle_sockets_once` of a sub-proxy, this time. A new thread comes to it after `start` turns,
and it takes `length` turns, of the loop of the caller. -/
structure handling where
  start : Nat
  length : Nat
  ends : handler_end
deriving DecidableEq, Repr

/-- A sub-proxy. `times_out` is whether its own `run_timers` makes it dead. -/
structure sub_proxy where
  dead : Bool := false
  in_progress : Nat := 0
  handler : handling
  times_out : Bool := false
deriving DecidableEq, Repr

/-- Where a thread is in `run_proxy`: before `fetch_add`, in the handler, or at its end. -/
inductive thread_stage
  | created (n : Nat)
  | handling (n : Nat)
  | finished
deriving DecidableEq, Repr

structure proxy_entry where
  proxy : Option sub_proxy
  thr : Option thread_stage := none
deriving DecidableEq, Repr

/-! ## Handlers -/

namespace sub_proxy

/-- `in_progress().fetch_add(1) == 0`. -/
def enter (p : sub_proxy) : Bool × sub_proxy :=
  (p.in_progress == 0, { p with in_progress := p.in_progress + 1 })

/-- The end of the handler, with `in_progress().store(0)` or the handlers of exceptions. -/
def leave (p : sub_proxy) : sub_proxy :=
  match p.handler.ends with
  | .returns dead => { p with dead := p.dead || dead, in_progress := 0 }
  | .throws => { p with dead := true }

/-- `run_timers` of the sub-proxy. -/
def run_timers (p : sub_proxy) : sub_proxy :=
  { p with dead := p.dead || p.times_out }

end sub_proxy

namespace proxy_entry

/-- What the thread of an entry does in one turn of the caller. -/
def tick (e : proxy_entry) : proxy_entry :=
  match e.proxy, e.thr with
  | some _, some (.created (n + 1)) => { e with thr := some (.created n) }
  | some p, some (.created 0) =>
    if p.enter.1 then { proxy := some p.enter.2, thr := some (.handling p.handler.length) }
    else { proxy := some p.enter.2, thr := some .finished }
  | some _, some (.handling (n + 1)) => { e with thr := some (.handling n) }
  | some p, some (.handling 0) => { proxy := some p.leave, thr := some .finished }
  | _, _ => e

def ticks : Nat → proxy_entry → proxy_entry
  | 0, e => e
  | n + 1, e => ticks n e.tick

/-- The turns after which the thread has ended. -/
def ticks_left (e : proxy_entry) : Nat :=
  match e.proxy, e.thr with
  | some p, some (.created n) => n + 1 + (p.handler.length + 1)
  | some _, some (.handling n) => n + 1
  | _, _ => 0

/-- `thread_finish`: the entry when its thread is joined. -/
def thread_finish (e : proxy_entry) : proxy_entry :=
  { e.ticks e.ticks_left with thr := none }

end proxy_entry

/-! ## The call -/

/-- A call of `handle_sockets_once`, or with `timers_only` one of `run_timers`. `due` is what
`clicker_` says, and `own` is how the handling of the own sockets ends: with a `com_error`, or with
the state `dead` of the master. -/
structure call where
  timers_only : Bool := false
  due : Bool := false
  own : Option Bool := some false
  subproxy_thread_spray_min : Nat := 2

/-- The loop that runs. -/
inductive loop_phase
  | timers | own | run | cleanup
deriving DecidableEq, Repr

/-- The list, cut at the iterator. `erased` is not in the code: it records the sub-proxies that were
erased, as they were then. -/
structure MasterProxy where
  phase : loop_phase := .timers
  front : List proxy_entry := []
  rest : List proxy_entry
  erased : List sub_proxy := []
  r : Nat := 0

/-- What a call leaves. -/
structure outcome where
  proxies : List proxy_entry
  erased : List sub_proxy
  r : Nat
deriving DecidableEq, Repr

namespace MasterProxy

/-- All threads go on for `n` turns. -/
def wait (n : Nat) (s : MasterProxy) : MasterProxy :=
  { s with front := s.front.map (.ticks n), rest := s.rest.map (.ticks n) }

/-- The iterator is behind an entry, and the threads went on for `n` turns. -/
def past (s : MasterProxy) (n : Nat) (rest : List proxy_entry) : MasterProxy :=
  wait n { s with rest }

/-- The end of a call. -/
def leave (s : MasterProxy) : outcome :=
  { proxies := s.front ++ s.rest, erased := s.erased, r := s.r }

/-- The iterator goes back to the begin of the list. -/
def begin (s : MasterProxy) (phase : loop_phase) : MasterProxy :=
  { s with phase, front := [], rest := s.front ++ s.rest }

/-- `run_timers`, one turn of its loop. -/
def timers_turn (c : call) (s : MasterProxy) : Turn MasterProxy (Option outcome) :=
  let ended := if c.timers_only then .done (some s.leave) else .next (s.begin .own)
  if !c.due then ended
  else
    match s.rest with
    | [] => ended
    | e :: rest =>
      match e.proxy with
      | none => .next s
      | some p =>
        if p.dead && p.in_progress == 0 then
          let s := s.past e.ticks_left rest
          .next { s with erased := s.erased ++ e.thread_finish.proxy.toList }
        else .next { s with front := s.front ++ [{ e with proxy := some p.run_timers }], rest }

/-- Whether handlers get threads. -/
def sprays (c : call) (s : MasterProxy) : Bool :=
  let proxies_sz := s.front.length + s.rest.length
  c.subproxy_thread_spray_min > 0 && proxies_sz ≥ c.subproxy_thread_spray_min && proxies_sz > 1

/-- The handler of `p` in the caller. -/
def run_inline (s : MasterProxy) (e : proxy_entry) (p : sub_proxy) (rest : List proxy_entry) :
    MasterProxy :=
  if p.enter.1 then
    let s := s.past (p.handler.length + 1) rest
    { s with front := s.front ++ [{ e with proxy := some p.enter.2.leave }], r := s.r + 1 }
  else { s with front := s.front ++ [{ e with proxy := some p.enter.2 }], rest, r := s.r + 1 }

/-- The first loop of `handle_sockets_once`. It uses a null pointer, which is undefined. -/
def run_turn (c : call) (s : MasterProxy) : Turn MasterProxy (Option outcome) :=
  match s.rest with
  | [] => .next (s.begin .cleanup)
  | e :: rest =>
    match e.proxy with
    | none => .done none
    | some p =>
      let p := if c.own = some true then { p with dead := true } else p
      if p.in_progress ≠ 0 || p.dead then
        .next { s with front := s.front ++ [{ e with proxy := some p }], rest }
      else if s.sprays c then
        let e := { e with proxy := some p }
        let s := s.past e.ticks_left rest
        .next { s with
          front := s.front ++ [{ e.thread_finish with thr := some (.created p.handler.start) }]
          r := s.r + 1 }
      else .next (s.run_inline e p rest)

/-- The second loop of `handle_sockets_once`. -/
def cleanup_turn (s : MasterProxy) : Turn MasterProxy (Option outcome) :=
  match s.rest with
  | [] => .done (some s.leave)
  | e :: rest =>
    match e.proxy with
    | none => .next { s with rest }
    | some p =>
      if p.in_progress ≠ 0 then .next s
      else
        let s := s.past e.ticks_left rest
        match e.thread_finish.proxy with
        | none => .next s
        | some p =>
          if p.dead then .next { s with erased := s.erased ++ [p] }
          else .next { s with front := s.front ++ [e.thread_finish] }

/-- One turn of the loop that runs. Meanwhile the threads go on. -/
def turn (c : call) (s : MasterProxy) : Turn MasterProxy (Option outcome) :=
  let s := s.wait 1
  match s.phase with
  | .timers => s.timers_turn c
  | .own =>
    if c.own.isNone || s.rest.isEmpty then .done (some s.leave) else .next { s with phase := .run }
  | .run => s.run_turn c
  | .cleanup => s.cleanup_turn

end MasterProxy

/-- A call with these sub-proxies, none of them in a thread. -/
def start (proxies : List (Option sub_proxy)) : MasterProxy :=
  { rest := proxies.map fun proxy => { proxy } }

/-! ## The law -/

/-- The sub-proxies after `run_timers`, and those that it erases. -/
def timed (c : call) (proxies : List (Option sub_proxy)) : List (Option sub_proxy) :=
  if c.due then
    (proxies.filter fun p => !p.any fun p => p.dead && p.in_progress == 0).map fun p =>
      p.map .run_timers
  else proxies

def timed_out (c : call) (proxies : List (Option sub_proxy)) : List sub_proxy :=
  if c.due then (proxies.filterMap id).filter fun p => p.dead && p.in_progress == 0 else []

/-- The call comes to the sub-proxies. -/
def comes_to_proxies (c : call) : Bool :=
  !c.timers_only && c.own.isSome

/-- The handler of the sub-proxy is run. -/
def is_handled (c : call) (p : sub_proxy) : Bool :=
  !p.dead && c.own != some true

/-- What becomes of a sub-proxy: after its handler it is not in progress. -/
def settled (c : call) (p : sub_proxy) : sub_proxy :=
  { p with
    dead := p.dead || c.own == some true || p.handler.ends != .returns false
    in_progress := 0 }

/-- The call ends. It erased the sub-proxies that are dead, each once, and kept the others in their
order, and none of them is in progress. -/
def Progress (c : call) (proxies : List (Option sub_proxy)) : Prop :=
  ∃ o, Stops (MasterProxy.turn c) (start proxies) (some o) ∧
    if comes_to_proxies c then
      let ended := ((timed c proxies).filterMap id).map (settled c)
      o.proxies = (ended.filter fun p => !p.dead).map (fun p => { proxy := some p }) ∧
        o.erased = timed_out c proxies ++ ended.filter fun p => p.dead
    else
      o.proxies = (timed c proxies).map (fun proxy => { proxy }) ∧
        o.erased = timed_out c proxies

/-- No entry of a list that is gone through is null. Where handlers are run, no sub-proxy is in
progress before, and no handler throws. -/
structure Safe (c : call) (proxies : List (Option sub_proxy)) : Prop where
  due : c.due = true → none ∉ proxies
  present : comes_to_proxies c = true → none ∉ proxies
  idle : comes_to_proxies c = true → ∀ p, some p ∈ timed c proxies → p.in_progress = 0
  quiet : comes_to_proxies c = true → ∀ p, some p ∈ timed c proxies → is_handled c p = true →
    p.handler.ends ≠ .throws

/-! ## Threads -/

namespace proxy_entry

variable {e : proxy_entry}

theorem tick_idle (h : e.thr = none) : e.tick = e := by
  unfold tick
  rw [h]
  cases e.proxy <;> rfl

theorem ticks_idle (h : e.thr = none) (n : Nat) : e.ticks n = e := by
  induction n with
  | zero => rfl
  | succ n ih => rw [ticks, tick_idle h, ih]

theorem ticks_null (h : e.proxy = none) (n : Nat) : e.ticks n = e := by
  induction n with
  | zero => rfl
  | succ n ih =>
    have htick : e.tick = e := by
      unfold tick
      rw [h]
    rw [ticks, htick, ih]

/-- What each tick keeps, all keep. -/
theorem ticks_kept {P : proxy_entry → Prop} (hp : ∀ e, P e → P e.tick) (h : P e) (n : Nat) :
    P (e.ticks n) := by
  induction n generalizing e with
  | zero => exact h
  | succ n ih => exact ih (hp e h)

theorem tick_left (e : proxy_entry) : e.tick.ticks_left ≤ e.ticks_left - 1 := by
  obtain ⟨proxy, thr⟩ := e
  rcases proxy with _ | p
  · simp [tick, ticks_left]
  · rcases thr with _ | (_ | n) | (_ | n) | _
    · simp [tick, ticks_left]
    · simp only [tick]
      split <;> simp [ticks_left]
    · simp [tick, ticks_left]
      omega
    · simp [tick, ticks_left]
    · simp [tick, ticks_left]
    · simp [tick, ticks_left]

theorem ticks_left_ticks (e : proxy_entry) (n : Nat) :
    (e.ticks n).ticks_left ≤ e.ticks_left - n := by
  induction n generalizing e with
  | zero => exact Nat.le_refl _
  | succ n ih =>
    have h := tick_left e
    have hrest := ih e.tick
    rw [ticks]
    omega

/-- After the turns that are left the thread has ended. -/
theorem ticks_end (e : proxy_entry) : (e.ticks e.ticks_left).ticks_left = 0 := by
  have h := ticks_left_ticks e e.ticks_left
  omega

end proxy_entry

/-! ## What a sub-proxy comes to -/

variable {c : call}

/-- The entry will settle what becomes of `p`. -/
inductive Pending (c : call) (p : sub_proxy) : proxy_entry → Prop
  | created (n : Nat) (h : is_handled c p = true) (hq : p.handler.ends ≠ .throws) :
    Pending c p { proxy := some p, thr := some (.created n) }
  | handling (n : Nat) (h : is_handled c p = true) (hq : p.handler.ends ≠ .throws) :
    Pending c p { proxy := some { p with in_progress := 1 }, thr := some (.handling n) }
  | finished : Pending c p { proxy := some (settled c p), thr := some .finished }
  | idle : Pending c p { proxy := some (settled c p) }

/-- A handler that returns leaves the sub-proxy as it should be. -/
theorem leave_settled {p : sub_proxy} (h : is_handled c p = true)
    (hq : p.handler.ends ≠ .throws) :
    sub_proxy.leave { p with in_progress := 1 } = settled c p := by
  simp only [is_handled, Bool.and_eq_true, Bool.not_eq_true', bne_iff_ne, ne_eq] at h
  unfold sub_proxy.leave settled
  cases hends : p.handler.ends with
  | throws => exact absurd hends hq
  | returns dead => cases dead <;> simp [h.1, h.2]

theorem Pending.tick {p : sub_proxy} (hp : p.in_progress = 0) (e : proxy_entry)
    (h : Pending c p e) : Pending c p e.tick := by
  cases h with
  | created n h hq =>
    cases n with
    | zero =>
      have henter : p.enter = (true, { p with in_progress := 1 }) := by
        simp [sub_proxy.enter, hp]
      simp only [proxy_entry.tick, henter, if_true]
      exact .handling _ h hq
    | succ n => exact .created n h hq
  | handling n h hq =>
    cases n with
    | zero =>
      simp only [proxy_entry.tick, leave_settled h hq]
      exact .finished
    | succ n => exact .handling n h hq
  | finished => exact .finished
  | idle => exact .idle

theorem Pending.proxy {p : sub_proxy} {e : proxy_entry} (h : Pending c p e) :
    ∃ q, e.proxy = some q := by
  cases h <;> exact ⟨_, rfl⟩

/-- An entry in progress has a thread that goes on. -/
theorem Pending.left {p q : sub_proxy} {e : proxy_entry} (h : Pending c p e)
    (hq : e.proxy = some q) (hzero : q.in_progress ≠ 0) : 0 < e.ticks_left := by
  cases h with
  | handling n _ _ => exact Nat.succ_pos n
  | created n _ _ => exact Nat.add_pos_right _ (Nat.succ_pos _)
  | finished =>
    cases hq
    exact absurd rfl hzero
  | idle =>
    cases hq
    exact absurd rfl hzero

/-- When its thread is joined, the sub-proxy is settled. -/
theorem Pending.joined {p : sub_proxy} (hp : p.in_progress = 0) {e : proxy_entry}
    (h : Pending c p e) : e.thread_finish = { proxy := some (settled c p) } := by
  have hjoined := proxy_entry.ticks_kept (Pending.tick hp) h e.ticks_left
  have hleft := proxy_entry.ticks_end e
  unfold proxy_entry.thread_finish
  generalize e.ticks e.ticks_left = e' at hjoined hleft
  cases hjoined with
  | created n h hq => simp [proxy_entry.ticks_left] at hleft
  | handling n h hq => simp [proxy_entry.ticks_left] at hleft
  | finished => rfl
  | idle => rfl

/-! ## The loops -/

/-- A sub-proxy without a thread. -/
def parked (p : sub_proxy) : proxy_entry := { proxy := some p }

/-- No thread runs. -/
def Idle (l : List proxy_entry) : Prop := ∀ e ∈ l, e.thr = none

theorem idle_nil : Idle [] := fun _ he => nomatch he

theorem Idle.ticks {l : List proxy_entry} (h : Idle l) (n : Nat) : l.map (.ticks n) = l := by
  induction l with
  | nil => rfl
  | cons e l ih =>
    rw [List.map_cons, proxy_entry.ticks_idle (h e List.mem_cons_self),
      ih fun e' he' => h e' (List.mem_cons_of_mem e he')]

theorem idle_parked (ps : List sub_proxy) : Idle (ps.map parked) :=
  List.forall_mem_map.mpr fun _ _ => rfl

theorem Idle.snoc {l : List proxy_entry} (h : Idle l) {e : proxy_entry} (he : e.thr = none) :
    Idle (l ++ [e]) :=
  List.forall_mem_append.mpr ⟨h, List.forall_mem_singleton.mpr he⟩

namespace MasterProxy

variable {c : call} {s : MasterProxy} {rest : List proxy_entry}

theorem past_idle (hf : Idle s.front) (hr : Idle rest) (n : Nat) :
    s.past n rest = { s with rest } := by
  unfold past wait
  rw [hf.ticks, hr.ticks]

theorem turn_timers (h : s.phase = .timers) : turn c s = (s.wait 1).timers_turn c := by
  simp only [turn, wait, h]

theorem turn_run (h : s.phase = .run) : turn c s = (s.wait 1).run_turn c := by
  simp only [turn, wait, h]

theorem turn_cleanup (h : s.phase = .cleanup) : turn c s = (s.wait 1).cleanup_turn := by
  simp only [turn, wait, h]

theorem wait_idle (hf : Idle s.front) (hr : Idle s.rest) (n : Nat) : s.wait n = s :=
  past_idle hf hr n

end MasterProxy

/-- The sub-proxies that `run_timers` erases. -/
def timed_dead (ps : List sub_proxy) : List sub_proxy :=
  ps.filter fun p => p.dead && p.in_progress == 0

/-- The sub-proxies that `run_timers` leaves. -/
def timed_live (ps : List sub_proxy) : List sub_proxy :=
  (ps.filter fun p => !(p.dead && p.in_progress == 0)).map .run_timers

open MasterProxy in
/-- `run_timers` comes to the end of a list without null. -/
theorem timers_reach (hdue : c.due = true) (ps : List sub_proxy) {s : MasterProxy}
    (hphase : s.phase = .timers) (hfront : Idle s.front) (hrest : s.rest = ps.map parked) :
    Reach (turn c) s { s with
      front := s.front ++ (timed_live ps).map parked
      rest := []
      erased := s.erased ++ timed_dead ps } := by
  induction ps generalizing s with
  | nil =>
    have hend : { s with front := s.front ++ (timed_live []).map parked
                         rest := []
                         erased := s.erased ++ timed_dead [] } = s := by
      obtain ⟨phase, front, rest, erased, r⟩ := s
      simp only [List.map_nil] at hrest
      simp [timed_live, timed_dead, hrest]
    rw [hend]
    exact Relation.ReflTransGen.refl
  | cons p ps ih =>
    have hidle := idle_parked ps
    have hwait : s.wait 1 = s := wait_idle hfront (hrest ▸ idle_parked (p :: ps)) 1
    by_cases hp : (p.dead && p.in_progress == 0) = true
    · have hturn : turn c s =
          .next { s with rest := ps.map parked, erased := s.erased ++ [p] } := by
        simp only [turn, hwait, hphase, timers_turn, hdue, Bool.not_true, Bool.false_eq_true,
          if_false, hrest, List.map_cons, parked, hp, if_true]
        rw [past_idle hfront hidle]
        simp only [hphase]
        rfl
      have hdead : timed_dead (p :: ps) = p :: timed_dead ps := List.filter_cons_of_pos hp
      have hlive : timed_live (p :: ps) = timed_live ps := by
        simp only [timed_live, List.filter_cons, hp, Bool.not_true, Bool.false_eq_true, if_false]
      rw [hdead, hlive]
      refine Relation.ReflTransGen.head hturn (?_ : Reach _ _ _)
      have h := ih (s := { s with rest := ps.map parked, erased := s.erased ++ [p] })
        hphase hfront rfl
      simpa only [List.append_assoc, List.singleton_append] using h
    · have hturn : turn c s =
          .next { s with front := s.front ++ [parked p.run_timers], rest := ps.map parked } := by
        simp only [turn, hwait, hphase, timers_turn, hdue, Bool.not_true, Bool.false_eq_true,
          if_false, hrest, List.map_cons, parked, hp]
      have hdead : timed_dead (p :: ps) = timed_dead ps := List.filter_cons_of_neg hp
      have hlive : timed_live (p :: ps) = p.run_timers :: timed_live ps := by
        simp only [timed_live, List.filter_cons, hp, Bool.not_false, if_true, List.map_cons]
      rw [hdead, hlive, List.map_cons]
      refine Relation.ReflTransGen.head hturn (?_ : Reach _ _ _)
      have h := ih (s := { s with
        front := s.front ++ [parked p.run_timers], rest := ps.map parked })
        hphase (hfront.snoc rfl) rfl
      simpa only [List.append_assoc, List.singleton_append] using h

/-- The handlers of these sub-proxies are run without throwing. -/
def Runs (c : call) (p : sub_proxy) : Prop :=
  p.in_progress = 0 ∧ (is_handled c p = true → p.handler.ends ≠ .throws)

/-- Entries that settle what becomes of the sub-proxies `ps`. -/
def AllPending (c : call) (ps : List sub_proxy) (l : List proxy_entry) : Prop :=
  (∀ p ∈ ps, p.in_progress = 0) ∧ List.Forall₂ (Pending c) ps l

theorem AllPending.ticks {ps : List sub_proxy} {l : List proxy_entry} (h : AllPending c ps l)
    (n : Nat) : AllPending c ps (l.map (.ticks n)) := by
  obtain ⟨hp, hl⟩ := h
  refine ⟨hp, ?_⟩
  induction hl with
  | nil => exact .nil
  | cons he _ ih =>
    obtain ⟨hhead, htail⟩ := List.forall_mem_cons.mp hp
    exact .cons (proxy_entry.ticks_kept (Pending.tick hhead) he n) (ih htail)

theorem AllPending.snoc {ps : List sub_proxy} {l : List proxy_entry} (h : AllPending c ps l)
    {p : sub_proxy} (hp : p.in_progress = 0) {e : proxy_entry} (he : Pending c p e) :
    AllPending c (ps ++ [p]) (l ++ [e]) :=
  ⟨List.forall_mem_append.mpr ⟨h.1, List.forall_mem_singleton.mpr hp⟩,
    List.rel_append h.2 (.cons he .nil)⟩

/-- A sub-proxy whose handler is not run is settled. -/
theorem settled_of_not_handled {p : sub_proxy} (hp : p.in_progress = 0)
    (h : is_handled c p = false) :
    (if c.own = some true then { p with dead := true } else p) = settled c p ∧
      (settled c p).dead = true := by
  obtain ⟨dead, in_progress, handler, times_out⟩ := p
  simp only at hp
  subst hp
  by_cases hown : c.own = some true
  · simp [settled, hown]
  · have hdead : dead = true := by simpa [is_handled, hown] using h
    simp [settled, hown, hdead]

open MasterProxy in
/-- One turn of the first loop. -/
theorem run_turn_pending {p : sub_proxy} {ps before : List sub_proxy} (hruns : Runs c p)
    {s : MasterProxy} (hphase : s.phase = .run) (hfront : AllPending c before s.front)
    (hrest : s.rest = (p :: ps).map parked) :
    ∃ front r, turn c s = .next { s with front, rest := ps.map parked, r } ∧
      AllPending c (before ++ [p]) front := by
  have hidle : ∀ n, (ps.map parked).map (.ticks n) = ps.map parked := (idle_parked ps).ticks
  have hwaited := hfront.ticks 1
  have hwait : (s.wait 1).rest = parked p :: ps.map parked := by
    have hhead : (parked p).ticks 1 = parked p := proxy_entry.ticks_idle rfl 1
    simp only [wait, hrest, List.map_cons, hhead, hidle]
  rw [turn_run hphase]
  unfold run_turn
  rw [hwait]
  obtain ⟨hzero, hquiet⟩ := hruns
  by_cases hhandled : is_handled c p = true
  · obtain ⟨hdead, hown⟩ : p.dead = false ∧ c.own ≠ some true := by
      simpa [is_handled] using hhandled
    have hthrown := hquiet hhandled
    have hgo : ¬ (decide (p.in_progress ≠ 0) || p.dead) = true := by simp [hzero, hdead]
    by_cases hspray : sprays c (s.wait 1) = true
    · refine ⟨_, s.r + 1, ?_,
        (hwaited.ticks 0).snoc hzero (.created p.handler.start hhandled hthrown)⟩
      simp only [parked, if_neg hown, if_neg hgo, if_pos hspray]
      simp only [past, wait, hidle]
      rfl
    · refine ⟨_, s.r + 1, ?_, (hwaited.ticks (p.handler.length + 1)).snoc hzero .idle⟩
      have henter : p.enter = (true, { p with in_progress := 1 }) := by
        simp [sub_proxy.enter, hzero]
      simp only [parked, if_neg hown, if_neg hgo, if_neg hspray, run_inline, henter, if_true,
        leave_settled hhandled hthrown]
      simp only [past, wait, hidle]
  · obtain ⟨hsame, hdead⟩ := settled_of_not_handled hzero (Bool.not_eq_true _ ▸ hhandled)
    refine ⟨_, s.r, ?_, hwaited.snoc hzero .idle⟩
    simp only [parked, hsame, hdead, Bool.or_true, if_true]
    rfl

open MasterProxy in
/-- The first loop brings each sub-proxy on its way. -/
theorem run_reach (ps : List sub_proxy) (hruns : ∀ p ∈ ps, Runs c p) {before : List sub_proxy}
    {s : MasterProxy} (hphase : s.phase = .run) (hfront : AllPending c before s.front)
    (hrest : s.rest = ps.map parked) : ∃ front r, AllPending c (before ++ ps) front ∧
      Reach (turn c) s { s with front, rest := [], r } := by
  induction ps generalizing s before with
  | nil =>
    refine ⟨s.front, s.r, by simpa using hfront, ?_⟩
    have hend : { s with rest := [] } = s := by
      obtain ⟨phase, front, rest, erased, r⟩ := s
      simpa using hrest.symm
    rw [hend]
    exact Relation.ReflTransGen.refl
  | cons p ps ih =>
    obtain ⟨hhead, htail⟩ := List.forall_mem_cons.mp hruns
    obtain ⟨front, r, hturn, hpending⟩ := run_turn_pending hhead hphase hfront hrest
    obtain ⟨front', r', hpending', hreach⟩ := ih htail
      (s := { s with front, rest := ps.map parked, r }) hphase hpending rfl
    refine ⟨front', r', by simpa using hpending', ?_⟩
    exact Relation.ReflTransGen.head hturn hreach

/-- The sub-proxies of `ps` that stay, and those that go. -/
def live (ps : List sub_proxy) : List sub_proxy := ps.filter fun p => !p.dead

def dead (ps : List sub_proxy) : List sub_proxy := ps.filter fun p => p.dead

open MasterProxy in
/-- The second loop waits for the first entry, and then keeps or erases its sub-proxy. -/
theorem cleanup_head {p : sub_proxy} {ps : List sub_proxy} {e : proxy_entry}
    {rest : List proxy_entry} {s : MasterProxy} (hphase : s.phase = .cleanup)
    (hfront : Idle s.front) (hrest : s.rest = e :: rest) (hp : p.in_progress = 0)
    (he : Pending c p e) (hpending : AllPending c ps rest) :
    ∃ rest', AllPending c ps rest' ∧ Reach (turn c) s { s with
      front := s.front ++ (live [settled c p]).map parked
      rest := rest'
      erased := s.erased ++ dead [settled c p] } := by
  induction hn : e.ticks_left using Nat.strongRecOn generalizing e rest s with
  | ind n ih =>
    have hticked : Pending c p e.tick := he.tick hp
    have hrest1 := hpending.ticks 1
    have hwait : s.wait 1 = { s with rest := e.tick :: rest.map (.ticks 1) } := by
      unfold wait
      rw [hfront.ticks, hrest]
      rfl
    obtain ⟨q, hq⟩ := hticked.proxy
    by_cases hzero : q.in_progress = 0
    · -- the thread is joined
      have hpast : ({ s with rest := e.tick :: rest.map (.ticks 1) } : MasterProxy).past
          e.tick.ticks_left (rest.map (.ticks 1)) =
            { s with rest := (rest.map (.ticks 1)).map (.ticks e.tick.ticks_left) } := by
        unfold past wait
        simp only [hfront.ticks]
      refine ⟨_, hrest1.ticks e.tick.ticks_left, Relation.ReflTransGen.single ?_⟩
      rw [turn_cleanup hphase, hwait]
      unfold cleanup_turn
      simp only [hq, hzero, ne_eq, not_true_eq_false, if_false, hpast, hticked.joined hp]
      by_cases hdead : (settled c p).dead = true
      · simp [hdead, live, dead]
      · simp [hdead, live, dead, parked]
    · -- the handler has not returned
      have hturn : turn c s = .next (s.wait 1) := by
        rw [turn_cleanup hphase, hwait]
        unfold cleanup_turn
        simp only [hq, hzero, ne_eq, not_false_eq_true, if_true]
      have hlt : e.tick.ticks_left < n := by
        have hle := proxy_entry.tick_left e
        have hpos := hticked.left hq hzero
        omega
      rw [hwait] at hturn
      obtain ⟨rest', hpending', hreach⟩ := ih _ hlt
        (s := { s with rest := e.tick :: rest.map (.ticks 1) }) hphase hfront rfl hticked hrest1 rfl
      exact ⟨rest', hpending', Relation.ReflTransGen.head hturn hreach⟩

open MasterProxy in
/-- The second loop comes to its end. -/
theorem cleanup_reach (ps : List sub_proxy) {s : MasterProxy} (hphase : s.phase = .cleanup)
    (hfront : Idle s.front) (hrest : AllPending c ps s.rest) :
    Reach (turn c) s { s with
      front := s.front ++ (live (ps.map (settled c))).map parked
      rest := []
      erased := s.erased ++ dead (ps.map (settled c)) } := by
  induction ps generalizing s with
  | nil =>
    obtain ⟨phase, front, rest, erased, r⟩ := s
    obtain ⟨-, hnil⟩ := hrest
    cases hnil
    simp only [List.map_nil, live, dead, List.filter_nil, List.append_nil]
    exact Relation.ReflTransGen.refl
  | cons p ps ih =>
    obtain ⟨hzero, hall⟩ := hrest
    obtain ⟨hp, hps⟩ := List.forall_mem_cons.mp hzero
    obtain ⟨e, rest, he, hrest, heq⟩ := List.forall₂_cons_left_iff.mp hall
    obtain ⟨rest', hpending, hreach⟩ := cleanup_head hphase hfront heq hp he ⟨hps, hrest⟩
    refine Relation.ReflTransGen.trans hreach (?_ : Reach _ _ _)
    have h := ih (s := { s with
      front := s.front ++ (live [settled c p]).map parked
      rest := rest'
      erased := s.erased ++ dead [settled c p] }) hphase ?_ hpending
    · have hlive : live ((p :: ps).map (settled c)) =
          live [settled c p] ++ live (ps.map (settled c)) :=
        List.filter_append [settled c p] (ps.map (settled c))
      have hdead : dead ((p :: ps).map (settled c)) =
          dead [settled c p] ++ dead (ps.map (settled c)) :=
        List.filter_append [settled c p] (ps.map (settled c))
      rw [hlive, hdead, List.map_append, ← List.append_assoc, ← List.append_assoc]
      exact h
    · exact List.forall_mem_append.mpr ⟨hfront, idle_parked _⟩

/-! ## Handlers that throw -/

/-- The entry is in progress, or will be, and nothing resets that. -/
inductive Hangs : proxy_entry → Prop
  | idle (p : sub_proxy) (h : p.in_progress ≠ 0) : Hangs { proxy := some p }
  | created (p : sub_proxy) (n : Nat) (h : p.in_progress = 0) (ht : p.handler.ends = .throws) :
    Hangs { proxy := some p, thr := some (.created n) }
  | handling (p : sub_proxy) (n : Nat) (h : p.in_progress ≠ 0) (ht : p.handler.ends = .throws) :
    Hangs { proxy := some p, thr := some (.handling n) }
  | finished (p : sub_proxy) (h : p.in_progress ≠ 0) (hd : p.dead = true) :
    Hangs { proxy := some p, thr := some .finished }

theorem Hangs.tick (e : proxy_entry) (h : Hangs e) : Hangs e.tick := by
  cases h with
  | idle p h => exact .idle p h
  | created p n h ht =>
    cases n with
    | zero =>
      have henter : p.enter = (true, { p with in_progress := p.in_progress + 1 }) := by
        simp [sub_proxy.enter, h]
      simp only [proxy_entry.tick, henter, if_true]
      exact .handling _ _ (Nat.succ_ne_zero _) ht
    | succ n => exact .created p n h ht
  | handling p n h ht =>
    cases n with
    | zero =>
      have hleave : p.leave = { p with dead := true } := by
        unfold sub_proxy.leave
        rw [ht]
      simp only [proxy_entry.tick, hleave]
      exact .finished _ h rfl
    | succ n => exact .handling p n h ht
  | finished p h hd => exact .finished p h hd

/-- When its thread is joined, it is dead and in progress. -/
theorem Hangs.joined {e : proxy_entry} (h : Hangs e) {p : sub_proxy} (hp : e.proxy = some p)
    (hzero : p.in_progress = 0) :
    ∃ q, e.thread_finish.proxy = some q ∧ q.in_progress ≠ 0 ∧ q.dead = true := by
  have hsome : e.thr.isSome = true := by
    cases h with
    | idle q h =>
      cases hp
      exact absurd hzero h
    | created _ _ _ _ => rfl
    | handling _ _ _ _ => rfl
    | finished _ _ _ => rfl
  have hkept : ∀ e : proxy_entry, Hangs e ∧ e.thr.isSome = true →
      Hangs e.tick ∧ e.tick.thr.isSome = true := by
    rintro e ⟨h, hsome⟩
    refine ⟨h.tick, ?_⟩
    unfold proxy_entry.tick
    split
    · rfl
    · split <;> rfl
    · rfl
    · rfl
    · exact hsome
  obtain ⟨hjoined, hthr⟩ := proxy_entry.ticks_kept hkept ⟨h, hsome⟩ e.ticks_left
  have hleft := proxy_entry.ticks_end e
  unfold proxy_entry.thread_finish
  generalize e.ticks e.ticks_left = e' at hjoined hthr hleft
  cases hjoined with
  | idle q h => cases hthr
  | created q n h ht => simp [proxy_entry.ticks_left] at hleft
  | handling q n h ht => simp [proxy_entry.ticks_left] at hleft
  | finished q h hd => exact ⟨q, rfl, h, hd⟩

/-- The first loop cannot go past this entry, or leaves it hanging. -/
inductive Risky (c : call) : proxy_entry → Prop
  | null : Risky c { proxy := none }
  | in_progress (p : sub_proxy) (h : p.in_progress ≠ 0) : Risky c { proxy := some p }
  | throws (p : sub_proxy) (h : is_handled c p = true) (ht : p.handler.ends = .throws) :
    Risky c { proxy := some p }

theorem Risky.idle {e : proxy_entry} (h : Risky c e) : e.thr = none := by
  cases h <;> rfl

/-- The loops do not come to a good end. -/
def Doomed (c : call) (s : MasterProxy) : Prop :=
  match s.phase with
  | .run => (∃ e ∈ s.front, Hangs e) ∨ ∃ e ∈ s.rest, Risky c e
  | .cleanup => (∃ e ∈ s.rest, Hangs e) ∨ ∃ p ∈ s.erased, p.in_progress ≠ 0
  | _ => False

theorem hangs_ticks {l : List proxy_entry} (h : ∃ e ∈ l, Hangs e) (n : Nat) :
    ∃ e ∈ l.map (.ticks n), Hangs e := by
  obtain ⟨e, he, hh⟩ := h
  exact ⟨_, List.mem_map_of_mem he, proxy_entry.ticks_kept Hangs.tick hh n⟩

theorem risky_ticks {l : List proxy_entry} (h : ∃ e ∈ l, Risky c e) (n : Nat) :
    ∃ e ∈ l.map (.ticks n), Risky c e := by
  obtain ⟨e, he, hr⟩ := h
  exact ⟨e, List.mem_map.mpr ⟨e, he, proxy_entry.ticks_idle hr.idle n⟩, hr⟩

/-- The iterator goes past an entry, which hangs when it was risky. -/
theorem doomed_past {front rest : List proxy_entry} {e x : proxy_entry} {s : MasterProxy}
    (h : (∃ e ∈ front, Hangs e) ∨ ∃ e' ∈ e :: rest, Risky c e') (hx : Risky c e → Hangs x) (n : Nat)
    (hphase : s.phase = .run) (hfront : s.front = front.map (.ticks n) ++ [x])
    (hrest : s.rest = rest.map (.ticks n)) : Doomed c s := by
  unfold Doomed
  simp only [hphase, hfront, hrest]
  rcases h with hh | ⟨e', he', hr⟩
  · obtain ⟨e', he', hh⟩ := hangs_ticks hh n
    exact .inl ⟨e', List.mem_append_left _ he', hh⟩
  · rcases List.mem_cons.mp he' with rfl | he'
    · exact .inl ⟨x, List.mem_append_right _ List.mem_cons_self, hx hr⟩
    · exact .inr (risky_ticks ⟨e', he', hr⟩ n)

theorem map_ticks_zero (l : List proxy_entry) : l.map (.ticks 0) = l :=
  (List.map_congr_left fun _ _ => rfl).trans (List.map_id l)

/-- A handler that throws in the caller leaves its sub-proxy in progress. -/
theorem Hangs.inline {p : sub_proxy} (ht : p.handler.ends = .throws) :
    Hangs { proxy := some p.enter.2.leave } := by
  have hleave : p.enter.2.leave =
      { p with in_progress := p.in_progress + 1, dead := true } := by
    unfold sub_proxy.enter sub_proxy.leave
    simp only [ht]
  rw [hleave]
  exact .idle _ (Nat.succ_ne_zero _)

/-- The sub-proxy as the first loop sees it, when the master may be dead. -/
theorem seen_spec {p q : sub_proxy}
    (hq : (if c.own = some true then { p with dead := true } else p) = q) :
    q.in_progress = p.in_progress ∧ (is_handled c p = true → q = p ∧ p.dead = false) := by
  subst hq
  constructor
  · split <;> rfl
  · intro hh
    obtain ⟨hdead, hown⟩ : p.dead = false ∧ c.own ≠ some true := by
      simpa [is_handled] using hh
    exact ⟨if_neg hown, hdead⟩

/-- A risky sub-proxy that is not in progress throws. -/
theorem Risky.throwing {p q : sub_proxy} {thr : Option thread_stage}
    (h : Risky c { proxy := some p, thr })
    (hq : (if c.own = some true then { p with dead := true } else p) = q)
    (hzero : q.in_progress = 0) : q.handler.ends = .throws := by
  obtain ⟨hprogress, hsame⟩ := seen_spec hq
  cases h with
  | in_progress _ h => exact absurd (hprogress.symm.trans hzero) h
  | throws _ h ht => exact (hsame h).1.symm ▸ ht

open MasterProxy in
/-- A risky entry is not passed, or hangs then. -/
theorem run_doomed {s : MasterProxy} (hphase : s.phase = .run) (h : Doomed c s) :
    (∀ s', turn c s = .next s' → Doomed c s') ∧ ∀ o, turn c s ≠ .done (some o) := by
  rw [turn_run hphase]
  have hdoomed : (∃ e ∈ (s.wait 1).front, Hangs e) ∨ ∃ e ∈ (s.wait 1).rest, Risky c e := by
    simp only [Doomed, hphase] at h
    exact h.imp (hangs_ticks · 1) (risky_ticks · 1)
  have hphase1 : (s.wait 1).phase = .run := hphase
  generalize s.wait 1 = t at hdoomed hphase1
  unfold run_turn
  cases hrest : t.rest with
  | nil =>
    refine ⟨fun s' hs => ?_, nofun⟩
    cases hs
    rw [hrest] at hdoomed
    obtain ⟨e, he, hh⟩ := hdoomed.resolve_right nofun
    exact .inl ⟨e, List.mem_append_left _ he, hh⟩
  | cons e rest =>
    rw [hrest] at hdoomed
    obtain ⟨proxy, thr⟩ := e
    cases proxy with
    | none => exact ⟨nofun, nofun⟩
    | some p =>
      simp only
      generalize hp' : (if c.own = some true then { p with dead := true } else p) = p'
      by_cases hskip : (decide (p'.in_progress ≠ 0) || p'.dead) = true
      · rw [if_pos hskip]
        refine ⟨fun s' hs => ?_, nofun⟩
        cases hs
        refine doomed_past (n := 0) hdoomed (fun hr => ?_) hphase1
          (by rw [map_ticks_zero]) (map_ticks_zero rest).symm
        obtain ⟨hprogress, hsame⟩ := seen_spec hp'
        cases hr with
        | in_progress _ h => exact .idle _ (hprogress.symm ▸ h)
        | throws _ h ht =>
          obtain ⟨rfl, hdead⟩ := hsame h
          exact .idle _ (by simpa [hdead] using hskip)
      · have hzero : p'.in_progress = 0 := by
          by_contra hne
          exact hskip (by simp [hne])
        rw [if_neg hskip]
        by_cases hspray : t.sprays c = true
        · rw [if_pos hspray]
          refine ⟨fun s' hs => ?_, nofun⟩
          cases hs
          refine doomed_past hdoomed (fun hr => ?_) _ hphase1 rfl rfl
          obtain rfl : thr = none := hr.idle
          exact .created _ _ hzero (hr.throwing hp' hzero)
        · rw [if_neg hspray]
          refine ⟨fun s' hs => ?_, nofun⟩
          have henter : p'.enter.1 = true := by simp [sub_proxy.enter, hzero]
          simp only [run_inline, henter, if_true] at hs
          cases hs
          refine doomed_past hdoomed (fun hr => ?_) _ hphase1 rfl rfl
          obtain rfl : thr = none := hr.idle
          exact .inline (hr.throwing hp' hzero)

/-- The iterator goes past an entry, whose sub-proxy is erased in progress when it hangs. -/
theorem doomed_behind {rest : List proxy_entry} {erased : List sub_proxy} {e : proxy_entry}
    {s : MasterProxy}
    (h : (∃ e' ∈ e :: rest, Hangs e') ∨ ∃ p ∈ erased, p.in_progress ≠ 0) (n : Nat)
    (hphase : s.phase = .cleanup) (hrest : s.rest = rest.map (.ticks n))
    (herased : ∀ p ∈ erased, p ∈ s.erased)
    (hhead : Hangs e → ∃ p ∈ s.erased, p.in_progress ≠ 0) : Doomed c s := by
  unfold Doomed
  simp only [hphase, hrest]
  rcases h with ⟨e', he', hh⟩ | ⟨p, hp, hne⟩
  · rcases List.mem_cons.mp he' with rfl | he'
    · exact .inr (hhead hh)
    · exact .inl (hangs_ticks ⟨e', he', hh⟩ n)
  · exact .inr ⟨p, herased p hp, hne⟩

open MasterProxy in
/-- An entry that hangs is waited for, or is in progress when it is erased. -/
theorem cleanup_doomed {s : MasterProxy} (hphase : s.phase = .cleanup) (h : Doomed c s) :
    (∀ s', turn c s = .next s' → Doomed c s') ∧
      ∀ o, turn c s = .done (some o) → ∃ p ∈ o.erased, p.in_progress ≠ 0 := by
  rw [turn_cleanup hphase]
  have hdoomed : (∃ e ∈ (s.wait 1).rest, Hangs e) ∨
      ∃ p ∈ (s.wait 1).erased, p.in_progress ≠ 0 := by
    simp only [Doomed, hphase] at h
    exact h.imp_left (hangs_ticks · 1)
  have hphase1 : (s.wait 1).phase = .cleanup := hphase
  generalize s.wait 1 = t at hdoomed hphase1
  unfold cleanup_turn
  cases hrest : t.rest with
  | nil =>
    rw [hrest] at hdoomed
    refine ⟨nofun, fun o ho => ?_⟩
    cases ho
    exact hdoomed.resolve_left nofun
  | cons e rest =>
    rw [hrest] at hdoomed
    cases hproxy : e.proxy with
    | none =>
      simp only [hproxy]
      refine ⟨fun s' hs => ?_, nofun⟩
      cases hs
      refine doomed_behind hdoomed 0 hphase1 (map_ticks_zero rest).symm (fun _ hp => hp) fun hh => ?_
      cases hh <;> cases hproxy
    | some p =>
      simp only [hproxy]
      by_cases hzero : p.in_progress ≠ 0
      · simp only [if_pos hzero]
        refine ⟨fun s' hs => ?_, nofun⟩
        cases hs
        unfold Doomed
        simp only [hphase1, hrest]
        exact hdoomed
      · simp only [if_neg hzero]
        have hhead : Hangs e → ∃ q, e.thread_finish.proxy = some q ∧ q.in_progress ≠ 0 ∧
            q.dead = true := fun hh => hh.joined hproxy (not_not.mp hzero)
        cases hjoined : e.thread_finish.proxy with
        | none =>
          refine ⟨fun s' hs => ?_, nofun⟩
          cases hs
          refine doomed_behind hdoomed _ hphase1 rfl (fun _ hp => hp) fun hh => ?_
          obtain ⟨q, hq, -⟩ := hhead hh
          cases hjoined.symm.trans hq
        | some q =>
          by_cases hdead : q.dead = true
          · simp only [if_pos hdead]
            refine ⟨fun s' hs => ?_, nofun⟩
            cases hs
            refine doomed_behind hdoomed _ hphase1 rfl (fun _ hp => List.mem_append_left _ hp) fun hh => ?_
            obtain ⟨q', hq', hne, -⟩ := hhead hh
            cases hjoined.symm.trans hq'
            exact ⟨q, List.mem_append_right _ List.mem_cons_self, hne⟩
          · simp only [if_neg hdead]
            refine ⟨fun s' hs => ?_, nofun⟩
            cases hs
            refine doomed_behind hdoomed _ hphase1 rfl (fun _ hp => hp) fun hh => ?_
            obtain ⟨q', hq', -, hd⟩ := hhead hh
            cases hjoined.symm.trans hq'
            exact absurd hd hdead

open MasterProxy in
/-- What a doomed loop ends with, if it ends. -/
theorem doomed_end {s : MasterProxy} (h : Doomed c s) {o : outcome}
    (hs : Stops (turn c) s (some o)) : ∃ p ∈ o.erased, p.in_progress ≠ 0 := by
  obtain ⟨t, hreach, hdone⟩ := stops_iff.mp hs
  have hkept : ∀ t t', Doomed c t → turn c t = .next t' → Doomed c t' := by
    intro t t' ht hturn
    cases hphase : t.phase with
    | run => exact (run_doomed hphase ht).1 t' hturn
    | cleanup => exact (cleanup_doomed hphase ht).1 t' hturn
    | timers => simp [Doomed, hphase] at ht
    | own => simp [Doomed, hphase] at ht
  have hdoomed : Doomed c t := reach_kept hkept h hreach
  cases hphase : t.phase with
  | run => exact absurd hdone ((run_doomed hphase hdoomed).2 o)
  | cleanup => exact (cleanup_doomed hphase hdoomed).2 o hdone
  | timers => simp [Doomed, hphase] at hdoomed
  | own => simp [Doomed, hphase] at hdoomed

/-! ## Calls -/

/-- A list without null. -/
theorem exists_map_some {proxies : List (Option sub_proxy)} (h : none ∉ proxies) :
    ∃ ps : List sub_proxy, proxies = ps.map some := by
  refine ⟨proxies.filterMap id, ?_⟩
  induction proxies with
  | nil => rfl
  | cons p proxies ih =>
    rw [List.mem_cons, not_or] at h
    cases p with
    | none => exact absurd rfl h.1
    | some p => simpa using ih h.2

theorem timed_some (ps : List sub_proxy) :
    timed c (ps.map some) = (if c.due then timed_live ps else ps).map some ∧
      timed_out c (ps.map some) = if c.due then timed_dead ps else [] := by
  unfold timed timed_out
  by_cases hdue : c.due = true
  · simp only [hdue, if_true, timed_live, timed_dead]
    constructor
    · rw [List.filter_map, List.map_map, List.map_map]
      rfl
    · rw [List.filterMap_map, Function.id_comp, List.filterMap_some]
  · simp [hdue]

/-- An entry without a thread. -/
def entry_of (proxy : Option sub_proxy) : proxy_entry := { proxy }

theorem idle_entries (proxies : List (Option sub_proxy)) : Idle (proxies.map entry_of) :=
  List.forall_mem_map.mpr fun _ _ => rfl

/-- After its timers, a call is at its end or comes to the own sockets. -/
def after_timers (c : call) (proxies : List (Option sub_proxy)) :
    Turn MasterProxy (Option outcome) :=
  let entries := (timed c proxies).map entry_of
  if c.timers_only then
    .done (some { proxies := entries, erased := timed_out c proxies, r := 0 })
  else .next { phase := .own, rest := entries, erased := timed_out c proxies }

open MasterProxy in
theorem timers_end {proxies : List (Option sub_proxy)} (h : c.due = true → none ∉ proxies) :
    ∃ s, Reach (turn c) (start proxies) s ∧ turn c s = after_timers c proxies := by
  by_cases hdue : c.due = true
  · obtain ⟨ps, rfl⟩ := exists_map_some (h hdue)
    have hstart : (start (ps.map some)).rest = ps.map parked := List.map_map
    refine ⟨_, timers_reach hdue ps rfl idle_nil hstart, ?_⟩
    rw [turn_timers rfl, wait_idle (idle_parked (timed_live ps)) idle_nil]
    obtain ⟨htimed, hout⟩ := timed_some (c := c) ps
    rw [if_pos hdue] at htimed hout
    unfold timers_turn after_timers
    simp only [hdue, htimed, hout, Bool.not_true, Bool.false_eq_true, if_false, List.map_map]
    simp only [leave, begin, List.append_nil]
    rfl
  · refine ⟨start proxies, Relation.ReflTransGen.refl, ?_⟩
    rw [turn_timers rfl, wait_idle idle_nil (idle_entries proxies)]
    unfold timers_turn after_timers timed timed_out
    simp only [hdue, Bool.not_false, if_true, if_false, Bool.false_eq_true]
    rfl

/-- The state in which the own sockets are handled. -/
def at_own (c : call) (proxies : List (Option sub_proxy)) : MasterProxy :=
  { phase := .own, rest := (timed c proxies).map entry_of, erased := timed_out c proxies }

open MasterProxy in
theorem own_turn (proxies : List (Option sub_proxy)) : turn c (at_own c proxies) =
    if c.own.isNone || ((timed c proxies).map entry_of).isEmpty then
      .done (some { proxies := (timed c proxies).map entry_of
                    erased := timed_out c proxies, r := 0 })
    else .next { at_own c proxies with phase := .run } := by
  have hwait : (at_own c proxies).wait 1 = at_own c proxies :=
    wait_idle idle_nil (idle_entries _) 1
  unfold turn
  rw [hwait]
  rfl

open MasterProxy in
/-- The loops come to their end with sub-proxies whose handlers return. -/
theorem run_stops {s : MasterProxy} (hphase : s.phase = .run) (hfront : s.front = [])
    {ps : List sub_proxy} (hrest : s.rest = ps.map parked) (hruns : ∀ p ∈ ps, Runs c p) :
    ∃ r, Stops (turn c) s (some {
      proxies := (live (ps.map (settled c))).map parked
      erased := s.erased ++ dead (ps.map (settled c)), r }) := by
  have hnone : AllPending c [] s.front := by
    rw [hfront]
    exact ⟨nofun, .nil⟩
  obtain ⟨front, r, hpending, hreach⟩ := run_reach ps hruns hphase hnone hrest
  have hpending' := hpending.ticks 1
  refine ⟨r, (stops_of_reach hreach).mpr ?_⟩
  -- the iterator goes back for the second loop
  have hnext : turn c { s with front, rest := [], r } = .next { s with
      phase := .cleanup, front := [], rest := front.map (.ticks 1), r } := by
    unfold turn
    simp only [wait, hphase, run_turn, begin, List.map_nil, List.append_nil]
  rw [stops_next hnext]
  have hclean := cleanup_reach (c := c) ps (s := { s with
    phase := .cleanup, front := [], rest := front.map (.ticks 1), r }) rfl idle_nil hpending'
  rw [stops_of_reach hclean]
  refine (stops_done (r := some _) ?_).mpr rfl
  rw [turn_cleanup rfl, wait_idle (idle_parked _) idle_nil]
  unfold cleanup_turn
  simp [leave]

/-- What was erased with the flag reset. -/
theorem erased_idle {proxies : List (Option sub_proxy)} {p : sub_proxy}
    (h : p ∈ timed_out c proxies ++
      (((timed c proxies).filterMap id).map (settled c)).filter fun p => p.dead) :
    p.in_progress = 0 := by
  rcases List.mem_append.mp h with h | h
  · unfold timed_out at h
    split at h
    · simp only [List.mem_filter, Bool.and_eq_true, beq_iff_eq] at h
      exact h.2.2
    · cases h
  · obtain ⟨q, -, rfl⟩ := List.mem_map.mp (List.mem_filter.mp h).1
    rfl

theorem after_timers_own {proxies : List (Option sub_proxy)} (h : c.timers_only = false) :
    after_timers c proxies = .next (at_own c proxies) := by
  unfold after_timers
  simp only [h, Bool.false_eq_true, if_false]
  rfl

theorem progress_of_safe {proxies : List (Option sub_proxy)} (h : Safe c proxies) :
    Progress c proxies := by
  obtain ⟨s, hreach, hturn⟩ := timers_end h.due
  unfold Progress
  by_cases hcomes : comes_to_proxies c = true
  · obtain ⟨htimers, hown⟩ : c.timers_only = false ∧ c.own.isSome = true := by
      simpa [comes_to_proxies] using hcomes
    rw [after_timers_own htimers] at hturn
    obtain ⟨ps, rfl⟩ := exists_map_some (h.present hcomes)
    obtain ⟨qs, hqs⟩ : ∃ qs : List sub_proxy, timed c (ps.map some) = qs.map some :=
      ⟨_, (timed_some ps).1⟩
    have hruns : ∀ q ∈ qs, Runs c q := by
      intro q hq
      have hmem : some q ∈ timed c (ps.map some) := hqs ▸ List.mem_map_of_mem hq
      exact ⟨h.idle hcomes q hmem, h.quiet hcomes q hmem⟩
    have hended : (timed c (ps.map some)).filterMap id = qs := by
      rw [hqs, List.filterMap_map, Function.id_comp, List.filterMap_some]
    have hentries : (timed c (ps.map some)).map entry_of = qs.map parked := by
      rw [hqs, List.map_map]
      rfl
    have hat := own_turn (c := c) (ps.map some)
    rw [hentries] at hat
    simp only [if_pos hcomes, hended]
    cases qs with
    | nil =>
      have hdone : (c.own.isNone || (([] : List sub_proxy).map parked).isEmpty) = true := by simp
      rw [if_pos hdone] at hat
      refine ⟨_, (stops_of_reach hreach).mpr ((stops_next hturn).mpr ((stops_done hat).mpr rfl)),
        rfl, ?_⟩
      simp
    | cons q qs =>
      have hgo : ¬ (c.own.isNone || ((q :: qs).map parked).isEmpty) = true := by
        rw [Option.isSome_iff_ne_none] at hown
        simp [hown]
      rw [if_neg hgo] at hat
      obtain ⟨r, hstops⟩ := run_stops (s := { at_own c (ps.map some) with phase := .run }) rfl rfl
        hentries hruns
      exact ⟨_, (stops_of_reach hreach).mpr ((stops_next hturn).mpr ((stops_next hat).mpr hstops)),
        rfl, rfl⟩
  · simp only [if_neg hcomes]
    by_cases htimers : c.timers_only = true
    · rw [after_timers, if_pos htimers] at hturn
      exact ⟨_, (stops_of_reach hreach).mpr ((stops_done hturn).mpr rfl), rfl, rfl⟩
    · rw [Bool.not_eq_true] at htimers
      rw [after_timers_own htimers] at hturn
      have hown : c.own.isNone = true := by simpa [comes_to_proxies, htimers] using hcomes
      have hat := own_turn (c := c) proxies
      rw [if_pos (by rw [hown, Bool.true_or])] at hat
      exact ⟨_, (stops_of_reach hreach).mpr ((stops_next hturn).mpr ((stops_done hat).mpr rfl)),
        rfl, rfl⟩

open MasterProxy in
/-- A null entry stops the timers. -/
theorem timers_hang (hdue : c.due = true) {proxies : List (Option sub_proxy)}
    (hnull : none ∈ proxies) (o : Option outcome) : ¬ Stops (turn c) (start proxies) o := by
  refine not_stops_of_forever
    (P := fun s => s.phase = .timers ∧ ∃ e ∈ s.rest, e.proxy = none) ?_ ?_ o
  · rintro s ⟨hphase, hmem⟩
    have hticks : ∀ {l : List proxy_entry}, (∃ e ∈ l, e.proxy = none) → ∀ n,
        ∃ e ∈ l.map (proxy_entry.ticks n), proxy_entry.proxy e = none := by
      rintro l ⟨e, he, hp⟩ n
      exact ⟨e, List.mem_map.mpr ⟨e, he, proxy_entry.ticks_null hp n⟩, hp⟩
    rw [turn_timers hphase]
    have hmem1 : ∃ e ∈ (s.wait 1).rest, e.proxy = none := hticks hmem 1
    have hphase1 : (s.wait 1).phase = .timers := hphase
    generalize s.wait 1 = t at hmem1 hphase1
    unfold timers_turn
    simp only [hdue, Bool.not_true, Bool.false_eq_true, if_false]
    cases hrest : t.rest with
    | nil =>
      rw [hrest] at hmem1
      obtain ⟨e, he, -⟩ := hmem1
      cases he
    | cons e rest =>
      rw [hrest] at hmem1
      cases hproxy : e.proxy with
      | none => exact ⟨t, by simp only [hproxy], hphase1, e, hrest ▸ List.mem_cons_self, hproxy⟩
      | some p =>
        have htail : ∃ e ∈ rest, e.proxy = none := by
          obtain ⟨e', he', hp⟩ := hmem1
          rcases List.mem_cons.mp he' with rfl | he'
          · cases hproxy.symm.trans hp
          · exact ⟨e', he', hp⟩
        simp only [hproxy]
        split
        · exact ⟨_, rfl, hphase1, hticks htail _⟩
        · exact ⟨_, rfl, hphase1, htail⟩
  · exact ⟨rfl, entry_of none, List.mem_map_of_mem hnull, rfl⟩

theorem safe_of_progress {proxies : List (Option sub_proxy)} (h : Progress c proxies) :
    Safe c proxies := by
  obtain ⟨o, hstops, hlaw⟩ := h
  have hdue : c.due = true → none ∉ proxies := fun hd hn => timers_hang hd hn _ hstops
  have hrisk : comes_to_proxies c = true → ∀ p ∈ timed c proxies, ¬ Risky c (entry_of p) := by
    intro hcomes p hp hrisky
    obtain ⟨htimers, hown⟩ : c.timers_only = false ∧ c.own.isSome = true := by
      simpa [comes_to_proxies] using hcomes
    obtain ⟨s, hreach, hturn⟩ := timers_end hdue
    rw [after_timers_own htimers] at hturn
    have hat := own_turn (c := c) proxies
    have hgo : ¬ (c.own.isNone || ((timed c proxies).map entry_of).isEmpty) = true := by
      rw [Option.isSome_iff_ne_none] at hown
      simp only [Bool.or_eq_true, Option.isNone_iff_eq_none, hown, false_or, List.isEmpty_iff,
        List.map_eq_nil_iff]
      exact List.ne_nil_of_mem hp
    rw [if_neg hgo] at hat
    have hrun := (stops_next hat).mp ((stops_next hturn).mp ((stops_of_reach hreach).mp hstops))
    have hdoomed : Doomed c { at_own c proxies with phase := .run } :=
      .inr ⟨_, List.mem_map_of_mem hp, hrisky⟩
    obtain ⟨q, hq, hne⟩ := doomed_end hdoomed hrun
    rw [if_pos hcomes] at hlaw
    rw [hlaw.2] at hq
    exact hne (erased_idle hq)
  refine ⟨hdue, fun hcomes hn => ?_, fun hcomes p hp => ?_, fun hcomes p hp hh ht => ?_⟩
  · have hmem : none ∈ timed c proxies := by
      by_cases hd : c.due = true
      · exact absurd hn (hdue hd)
      · unfold timed
        rwa [if_neg hd]
    exact hrisk hcomes none hmem .null
  · by_contra hne
    exact hrisk hcomes _ hp (.in_progress p hne)
  · exact hrisk hcomes _ hp (.throws p hh ht)

/-- The loops over the sub-proxies come to their end, and erase and keep what they should, when no
entry is null and no handler throws, and else they do not. -/
theorem sub_proxies_make_progress (c : call) (proxies : List (Option sub_proxy)) :
    Progress c proxies ↔ Safe c proxies :=
  ⟨safe_of_progress, progress_of_safe⟩

/-- The handler of the only sub-proxy throws in the caller. The second loop waits for a flag that
nobody resets. -/
theorem a_throwing_handler_is_waited_for :
    ¬ ∀ (c : call) (proxies : List (Option sub_proxy)), Progress c proxies := by
  intro hall
  let p : sub_proxy := { handler := { start := 0, length := 0, ends := .throws } }
  have hsafe : Safe {} [some p] := safe_of_progress (hall {} [some p])
  exact hsafe.quiet rfl p List.mem_cons_self rfl rfl

end socle.master
