-- Permanent connections (baseproxy.cpp, hostcx.cpp): the loops over `left_pc_cx` and
-- `right_pc_cx`, and how a connection that failed is connected again. Both loops stop
-- at the first context that fails.
import Mathlib.Data.List.Chain
import Mathlib.Data.Int.Order.Basic
import Socle.Lib.Run

namespace socle.pc

open lib.run

/-! ## Data -/

/-- The side of a permanent connection, `x` or `y` in the code. -/
inductive side
  | left | right
  deriving DecidableEq

/-- `baseHostCX`, what the loops look at. `reconnects` are the times at which `reconnect` connected,
the last one first. -/
structure baseHostCX where
  fds : Int := 0
  opening : Bool := false
  error : Bool := false
  permanent : Bool := true
  reduced : Bool := false
  close_after_write : Bool := false
  last_reconnect : Int := 0
  t_connected : Int := 0
  w_activity : Int := 0
  r_activity : Int := 0
  idle_delay : Int := 3600
  reconnects : List Int := []

def reconnect_delay : Int := 7

/-- A read that is tried, when the com has it readable, and what `read` gives. -/
structure reading where
  proceed : Bool := false
  red : Int := -1

/-- A write that is tried, what `write` gives, and whether the buffer is empty then. -/
structure writing where
  proceed : Bool := false
  wrt : Int := 0
  emptied : Bool := false

/-- What a context meets in one turn of the loop. `fds` is what a connect gives. -/
structure turn where
  now : Int
  blocking : Bool := false
  fds : Int := -1
  to_read : Bool := false
  reading : reading := {}
  write_on_read : Option writing := none
  waiting : Bool := false
  peerless : Bool := false
  to_write : Bool := false
  writing : writing := {}
  read_on_write : Option pc.reading := none

/-! ## Contexts -/

namespace baseHostCX

def opened (now : Int) (cx : baseHostCX) : baseHostCX :=
  { cx with opening := true, t_connected := now, w_activity := now, r_activity := now }

def connect (t : turn) (cx : baseHostCX) : baseHostCX :=
  let cx := { cx.opened t.now with fds := t.fds, error := false }
  if t.blocking then { cx with opening := false } else cx

/-- `shutdown`. The descriptor that is put aside is not modelled here. -/
def shutdown (cx : baseHostCX) : baseHostCX :=
  if cx.fds ≠ 0 then { cx with fds := 0 } else cx

def should_reconnect_now (now : Int) (cx : baseHostCX) : Bool :=
  decide (now - cx.last_reconnect > reconnect_delay) && !cx.reduced

def reconnect (t : turn) (cx : baseHostCX) : baseHostCX :=
  if cx.should_reconnect_now t.now && cx.permanent then
    { cx.shutdown.connect t with
      last_reconnect := t.now
      reconnects := t.now :: cx.reconnects }
  else if !cx.permanent then cx
  else if cx.reduced then { cx with last_reconnect := t.now }
  else cx

def opening_timeout (now : Int) (cx : baseHostCX) : Bool :=
  cx.opening && decide (now - cx.t_connected > reconnect_delay)

def idle_timeout (now : Int) (cx : baseHostCX) : Bool :=
  decide (now - cx.w_activity > cx.idle_delay ∧ now - cx.w_activity ≠ 0) &&
    decide (now - cx.r_activity > cx.idle_delay ∧ now - cx.r_activity ≠ 0)

end baseHostCX

/-! ## The proxy -/

/-- `on_left_pc_error` and `on_right_pc_error`. On the left a context that is opening is only
reported. -/
def on_pc_error (s : side) (t : turn) (cx : baseHostCX) : baseHostCX :=
  match s with
  | .left => if cx.opening then cx else cx.reconnect t
  | .right => cx.reconnect t

def handle_cx_events (s : side) (t : turn) (cx : baseHostCX) : baseHostCX × Bool :=
  if cx.opening_timeout t.now then ((on_pc_error s t cx).shutdown, false)
  else if cx.idle_timeout t.now then ((on_pc_error s t cx).shutdown, false)
  else if cx.error then ((on_pc_error s t cx).shutdown, false)
  else (cx, true)

def handle_cx_read (s : side) (t : turn) (r : reading) (cx : baseHostCX) : baseHostCX × Bool :=
  if r.proceed then
    if r.red = 0 then
      -- `read` sets the error
      (on_pc_error s t { cx with error := true }.shutdown, false)
    else if r.red > 0 then ({ cx with opening := false, r_activity := t.now }, true)
    else (cx, true)
  else (cx, true)

def handle_cx_write (s : side) (t : turn) (w : writing) (cx : baseHostCX) : baseHostCX × Bool :=
  if w.proceed then
    if w.wrt < 0 then (on_pc_error s t cx.shutdown, false)
    else if w.wrt > 0 then
      let cx := { cx with opening := false, w_activity := t.now }
      (if cx.close_after_write && w.emptied then cx.shutdown else cx, true)
    else (cx, true)
  else (cx, true)

/-- The part of `handle_cx_read_once` in front of its events. -/
def read_write (s : side) (t : turn) (cx : baseHostCX) : baseHostCX × Bool :=
  if t.to_read then
    let (cx, ok) := handle_cx_read s t t.reading cx
    if ok then
      match t.write_on_read with
      | none => (cx, true)
      | some w => handle_cx_write s t w cx
    else (cx, false)
  else (cx, true)

def handle_cx_read_once (s : side) (t : turn) (cx : baseHostCX) : baseHostCX × Bool :=
  if cx.fds = 0 then ((handle_cx_events s t { cx with error := true }).1, false)
  else
    let (cx, ret) := read_write s t cx
    let (cx, ok) := handle_cx_events s t cx
    (cx, ret && ok)

def handle_cx_write_once (s : side) (t : turn) (cx : baseHostCX) : baseHostCX × Bool :=
  if cx.fds = 0 then ((handle_cx_events s t { cx with error := true }).1, false)
  else if t.waiting then
    handle_cx_events s t (if t.peerless then { cx with error := true } else cx)
  else if t.to_write then
    let (cx, ok) := handle_cx_write s t t.writing cx
    if ok then
      match t.read_on_write with
      | none => (cx, true)
      | some r =>
        let (cx, ok) := handle_cx_read s t r cx
        if ok then (cx, true) else ((handle_cx_events s t cx).1, false)
    else ((handle_cx_events s t cx).1, false)
  else (cx, true)

/-- `on_left_pc_restore` and `on_right_pc_restore`, of a context that is opening. -/
def on_pc_restore (cx : baseHostCX) : baseHostCX :=
  if cx.opening then { cx with opening := false } else cx

/-- A context in error is left alone until it is time to reconnect. -/
def in_error (s : side) (t : turn) (cx : baseHostCX) : baseHostCX :=
  if cx.should_reconnect_now t.now then on_pc_error s t cx else cx

/-- The writes of one context. -/
def pc_write (s : side) (t : turn) (cx : baseHostCX) : baseHostCX × Bool :=
  if cx.error then (in_error s t cx, false)
  else
    let (cx, ok) := handle_cx_write_once s t cx
    if ok then (on_pc_restore cx, true) else (on_pc_error s t cx, false)

/-- One context in the loop of `handle_sockets_once`, and whether the loop goes on. -/
def pc_once (s : side) (t : turn) (cx : baseHostCX) : baseHostCX × Bool :=
  if cx.error then (in_error s t cx, false)
  else
    let (cx, ok) := handle_cx_read_once s t cx
    if ok then pc_write s t (on_pc_restore cx) else (on_pc_error s t cx, false)

/-- The loop over a vector. `ts` is what each of its contexts meets. -/
def pc_loop (s : side) : List turn → List baseHostCX → List baseHostCX
  | t :: ts, cx :: rest =>
    let (cx, goes_on) := pc_once s t cx
    cx :: if goes_on then pc_loop s ts rest else rest
  | _, cxs => cxs

/-- The loop, time after time. -/
def run (s : side) (tss : List (List turn)) (cxs : List baseHostCX) : List baseHostCX :=
  tss.foldl (fun cxs ts => pc_loop s ts cxs) cxs

/-! ## Reconnects -/

/-- In a turn nothing is connected, or once, when it is time. -/
structure Turned (now : Int) (cx cx' : baseHostCX) : Prop where
  reduced : cx'.reduced = cx.reduced
  once : (cx'.reconnects = cx.reconnects ∧
      (cx'.last_reconnect = cx.last_reconnect ∨ cx.reduced = true)) ∨
    (cx'.reconnects = now :: cx.reconnects ∧ cx'.last_reconnect = now ∧ cx.reduced = false ∧
      reconnect_delay < now - cx.last_reconnect)

section
variable {s : side} {t : turn} {now : Int} {cx cx' cx'' : baseHostCX}

theorem Turned.of_eq (hreduced : cx'.reduced = cx.reduced)
    (hreconnects : cx'.reconnects = cx.reconnects)
    (hlast : cx'.last_reconnect = cx.last_reconnect) : Turned now cx cx' :=
  ⟨hreduced, Or.inl ⟨hreconnects, Or.inl hlast⟩⟩

theorem Turned.refl : Turned now cx cx :=
  Turned.of_eq rfl rfl rfl

/-- Not twice in one turn: it is not time again. -/
theorem Turned.trans (h : Turned now cx cx') (h' : Turned now cx' cx'') : Turned now cx cx'' := by
  refine ⟨h'.reduced.trans h.reduced, ?_⟩
  rcases h.once with ⟨hr, hl⟩ | ⟨hr, hl, hred, hdue⟩
  · rcases h'.once with ⟨hr', hl'⟩ | ⟨hr', hl', hred', hdue'⟩
    · left
      refine ⟨hr'.trans hr, ?_⟩
      rcases hl with hl | hred
      · rcases hl' with hl' | hred'
        · exact Or.inl (hl'.trans hl)
        · exact Or.inr (h.reduced ▸ hred')
      · exact Or.inr hred
    · right
      rw [h.reduced] at hred'
      refine ⟨by rw [hr', hr], hl', hred', ?_⟩
      rcases hl with hl | hred
      · rwa [hl] at hdue'
      · rw [hred] at hred'
        cases hred'
  · right
    rcases h'.once with ⟨hr', hl'⟩ | ⟨-, -, -, hdue'⟩
    · refine ⟨hr'.trans hr, ?_, hred, hdue⟩
      rcases hl' with hl' | hred'
      · exact hl'.trans hl
      · rw [h.reduced, hred] at hred'
        cases hred'
    · rw [hl] at hdue'
      unfold reconnect_delay at hdue'
      omega

theorem turned_shutdown : Turned now cx cx.shutdown := by
  unfold baseHostCX.shutdown
  split
  · exact Turned.of_eq rfl rfl rfl
  · exact Turned.refl

theorem connect_fields : (cx.connect t).reduced = cx.reduced := by
  unfold baseHostCX.connect
  simp only
  split <;> rfl

theorem shutdown_fields : cx.shutdown.reduced = cx.reduced := by
  unfold baseHostCX.shutdown
  split <;> rfl

theorem turned_reconnect : Turned t.now cx (cx.reconnect t) := by
  unfold baseHostCX.reconnect
  split
  · next h =>
    simp only [baseHostCX.should_reconnect_now, Bool.and_eq_true, decide_eq_true_eq,
      Bool.not_eq_true'] at h
    refine ⟨?_, Or.inr ⟨rfl, rfl, h.1.2, h.1.1⟩⟩
    simp only
    rw [connect_fields, shutdown_fields]
  · split
    · exact Turned.refl
    · split
      · next hred => exact ⟨rfl, Or.inl ⟨rfl, Or.inr hred⟩⟩
      · exact Turned.refl

theorem turned_pc_error : Turned t.now cx (on_pc_error s t cx) := by
  unfold on_pc_error
  cases s with
  | left =>
    simp only
    split
    · exact Turned.refl
    · exact turned_reconnect
  | right => exact turned_reconnect

theorem turned_events : Turned t.now cx (handle_cx_events s t cx).1 := by
  have hfail : Turned t.now cx (on_pc_error s t cx).shutdown :=
    turned_pc_error.trans turned_shutdown
  unfold handle_cx_events
  split
  · exact hfail
  · split
    · exact hfail
    · split
      · exact hfail
      · exact Turned.refl

theorem turned_read {r : reading} : Turned t.now cx (handle_cx_read s t r cx).1 := by
  have herror : Turned t.now cx { cx with error := true } := Turned.of_eq rfl rfl rfl
  unfold handle_cx_read
  split
  · split
    · exact (herror.trans turned_shutdown).trans turned_pc_error
    · split
      · exact Turned.of_eq rfl rfl rfl
      · exact Turned.refl
  · exact Turned.refl

theorem turned_write {w : writing} : Turned t.now cx (handle_cx_write s t w cx).1 := by
  have hsent : Turned t.now cx { cx with opening := false, w_activity := t.now } :=
    Turned.of_eq rfl rfl rfl
  unfold handle_cx_write
  split
  · split
    · exact turned_shutdown.trans turned_pc_error
    · split
      · simp only
        split
        · exact hsent.trans turned_shutdown
        · exact hsent
      · exact Turned.refl
  · exact Turned.refl

theorem turned_read_write : Turned t.now cx (read_write s t cx).1 := by
  unfold read_write
  split
  · simp only
    split
    · split
      · exact turned_read
      · exact turned_read.trans turned_write
    · exact turned_read
  · exact Turned.refl

theorem turned_read_once : Turned t.now cx (handle_cx_read_once s t cx).1 := by
  have herror : Turned t.now cx { cx with error := true } := Turned.of_eq rfl rfl rfl
  unfold handle_cx_read_once
  split
  · exact herror.trans turned_events
  · exact turned_read_write.trans turned_events

theorem turned_write_once : Turned t.now cx (handle_cx_write_once s t cx).1 := by
  have herror : Turned t.now cx { cx with error := true } := Turned.of_eq rfl rfl rfl
  unfold handle_cx_write_once
  split
  · exact herror.trans turned_events
  · split
    · split
      · exact herror.trans turned_events
      · exact turned_events
    · split
      · simp only
        split
        · split
          · exact turned_write
          · split
            · exact turned_write.trans turned_read
            · exact (turned_write.trans turned_read).trans turned_events
        · exact turned_write.trans turned_events
      · exact Turned.refl

theorem turned_restore : Turned now cx (on_pc_restore cx) := by
  unfold on_pc_restore
  split
  · exact Turned.of_eq rfl rfl rfl
  · exact Turned.refl

theorem turned_in_error : Turned t.now cx (in_error s t cx) := by
  unfold in_error
  split
  · exact turned_pc_error
  · exact Turned.refl

theorem turned_pc_write : Turned t.now cx (pc_write s t cx).1 := by
  unfold pc_write
  split
  · exact turned_in_error
  · simp only
    split
    · exact turned_write_once.trans turned_restore
    · exact turned_write_once.trans turned_pc_error

/-- What a turn does. -/
theorem turned_once : Turned t.now cx (pc_once s t cx).1 := by
  unfold pc_once
  split
  · exact turned_in_error
  · simp only
    split
    · exact (turned_read_once.trans turned_restore).trans turned_pc_write
    · exact turned_read_once.trans turned_pc_error

/-- The reconnects so far are more than the delay apart. -/
structure Paced (cx : baseHostCX) : Prop where
  chain : cx.reconnects.IsChain fun later earlier => earlier + reconnect_delay < later
  last : ∀ a, cx.reconnects.head? = some a → cx.reduced = false ∧ cx.last_reconnect = a

theorem Paced.turned (hp : Paced cx) (h : Turned now cx cx') : Paced cx' := by
  rcases h.once with ⟨hr, hl⟩ | ⟨hr, hl, hred, hdue⟩
  · refine ⟨?_, ?_⟩
    · rw [hr]
      exact hp.chain
    · intro a ha
      rw [hr] at ha
      obtain ⟨hred, hlast⟩ := hp.last a ha
      refine ⟨h.reduced.trans hred, ?_⟩
      rcases hl with hl | hred'
      · exact hl.trans hlast
      · rw [hred] at hred'
        cases hred'
  · refine ⟨?_, ?_⟩
    · rw [hr]
      cases hold : cx.reconnects with
      | nil => exact List.IsChain.singleton now
      | cons b rest =>
        have hchain := hp.chain
        rw [hold] at hchain
        have hb := (hp.last b (by rw [hold]; rfl)).2
        rw [hb] at hdue
        exact List.IsChain.cons_cons (by omega) hchain
    · intro a ha
      rw [hr] at ha
      exact ⟨h.reduced.trans hred, hl.trans (Option.some.inj ha)⟩

theorem paced_loop {ts : List turn} {cxs : List baseHostCX} (h : ∀ cx ∈ cxs, Paced cx) :
    ∀ cx ∈ pc_loop s ts cxs, Paced cx := by
  induction ts generalizing cxs with
  | nil => exact h
  | cons t ts ih =>
    cases cxs with
    | nil => exact h
    | cons c rest =>
      have hc : Paced (pc_once s t c).1 := (h c List.mem_cons_self).turned turned_once
      have hrest : ∀ cx ∈ rest, Paced cx := fun cx hcx => h cx (List.mem_cons_of_mem c hcx)
      intro cx hcx
      simp only [pc_loop, List.mem_cons] at hcx
      rcases hcx with rfl | hcx
      · exact hc
      · split at hcx
        · exact ih hrest cx hcx
        · exact hrest cx hcx

/-- Whatever happens on the sockets, a connection is reconnected at times that are more than the
delay apart. -/
theorem reconnects_are_paced (s : side) (tss : List (List turn)) {cxs : List baseHostCX}
    (hnew : ∀ cx ∈ cxs, cx.reconnects = []) :
    ∀ cx ∈ run s tss cxs,
      cx.reconnects.IsChain fun later earlier => earlier + reconnect_delay < later := by
  have hpaced : ∀ cx ∈ cxs, Paced cx := by
    intro cx hcx
    have hnil := hnew cx hcx
    refine ⟨?_, ?_⟩
    · rw [hnil]
      exact List.IsChain.nil
    · intro a ha
      rw [hnil] at ha
      cases ha
  have hrun : ∀ cx ∈ run s tss cxs, Paced cx := by
    clear hnew
    unfold run
    induction tss generalizing cxs with
    | nil => exact hpaced
    | cons ts rest ih => exact ih (paced_loop hpaced)
  exact fun cx hcx => (hrun cx hcx).chain

end

/-- A connection that is closed by its peer is reconnected at once, and again when it is time. -/
theorem reconnects_are_paced_witness :
    ∃ cx, run .right [[{ now := 10, fds := 5, to_read := true, reading := ⟨true, 0⟩ }],
        [{ now := 12, fds := 6, to_read := true, reading := ⟨true, 0⟩ }], [{ now := 18, fds := 7 }]]
        [{ fds := 4, w_activity := 10, r_activity := 10 }] = [cx] ∧ cx.reconnects = [18, 10] ∧
      cx.reconnects.IsChain fun later earlier => earlier + reconnect_delay < later := by
  have hnew : ∀ cx ∈ [({ fds := 4, w_activity := 10, r_activity := 10 } : baseHostCX)],
      cx.reconnects = [] := by
    simp
  have hpaced := reconnects_are_paced .right
    [[{ now := 10, fds := 5, to_read := true, reading := ⟨true, 0⟩ }],
      [{ now := 12, fds := 6, to_read := true, reading := ⟨true, 0⟩ }], [{ now := 18, fds := 7 }]]
    hnew
  exact ⟨_, rfl, rfl, hpaced _ List.mem_cons_self⟩

/-! ## What the loop comes to -/

/-- What the context at place `n` meets, when the loop comes to it. -/
def meets (s : side) : List turn → List baseHostCX → Nat → Option turn
  | t :: _, _ :: _, 0 => some t
  | t :: ts, cx :: rest, n + 1 => if (pc_once s t cx).2 then meets s ts rest n else none
  | _, _, _ => none

section
variable {s : side} {ts : List turn} {cxs : List baseHostCX} {n : Nat} {t : turn} {cx : baseHostCX}

theorem loop_at (hmeets : meets s ts cxs n = some t) (hcx : cxs[n]? = some cx) :
    (pc_loop s ts cxs)[n]? = some (pc_once s t cx).1 := by
  induction ts generalizing cxs n with
  | nil => cases hmeets
  | cons t' ts ih =>
    cases cxs with
    | nil => cases hmeets
    | cons cx' rest =>
      cases n with
      | zero =>
        cases hmeets
        cases hcx
        simp [pc_loop]
      | succ n =>
        rw [meets] at hmeets
        split at hmeets
        next hgoes => simpa [pc_loop, hgoes] using ih hmeets hcx
        next => cases hmeets

/-- What the loop does not come to stays, and all behind it. -/
theorem loop_from (hmeets : meets s ts cxs n = none) :
    (pc_loop s ts cxs).drop n = cxs.drop n := by
  induction ts generalizing cxs n with
  | nil => rfl
  | cons t' ts ih =>
    cases cxs with
    | nil => rfl
    | cons cx' rest =>
      cases n with
      | zero => cases hmeets
      | succ n =>
        rw [meets] at hmeets
        split at hmeets
        next hgoes => simpa [pc_loop, hgoes] using ih hmeets
        next hstops => simp [pc_loop, hstops]

/-- What is behind a context that stops the loop stays. -/
theorem loop_behind (hmeets : meets s ts cxs n = some t) (hcx : cxs[n]? = some cx)
    (hstops : (pc_once s t cx).2 = false) :
    (pc_loop s ts cxs).drop (n + 1) = cxs.drop (n + 1) := by
  apply loop_from
  induction ts generalizing cxs n with
  | nil => cases hmeets
  | cons t' ts ih =>
    cases cxs with
    | nil => cases hmeets
    | cons cx' rest =>
      cases n with
      | zero =>
        cases hmeets
        cases hcx
        simp [meets, hstops]
      | succ n =>
        rw [meets] at hmeets ⊢
        split at hmeets
        next hgoes =>
          rw [if_pos hgoes]
          exact ih hmeets hcx
        next => cases hmeets

/-- A context that stays as long as the loop does not come to it. -/
theorem loop_same (hmeets : meets s ts cxs n = none) : (pc_loop s ts cxs)[n]? = cxs[n]? := by
  have hfrom := congrArg List.head? (loop_from hmeets)
  rwa [List.head?_drop, List.head?_drop] at hfrom

end

/-! ## Connections that are never reconnected -/

/-- A context that was shut down while it was opening. -/
structure Lost (cx : baseHostCX) : Prop where
  fds : cx.fds = 0
  opening : cx.opening = true

section
variable {t : turn} {cx : baseHostCX}

theorem shutdown_of (cx : baseHostCX) : cx.shutdown = { cx with fds := 0 } := by
  unfold baseHostCX.shutdown
  split
  · rfl
  · next h => rw [← not_ne_iff.mp h]

/-- Nothing more happens to a context that is opening and has no socket. -/
theorem events_opening (hlost : Lost cx) : (handle_cx_events .left t cx).1 = cx := by
  have hshut : cx.shutdown = cx := by
    unfold baseHostCX.shutdown
    exact if_neg (not_not.mpr hlost.fds)
  have herror : on_pc_error .left t cx = cx := if_pos hlost.opening
  unfold handle_cx_events
  rw [herror, hshut]
  split
  · rfl
  · split
    · rfl
    · split <;> rfl

/-- The left loop sets the error, and never does anything more. It goes no further. -/
theorem lost_once (hlost : Lost cx) :
    pc_once .left t cx = ({ cx with error := true }, false) := by
  unfold pc_once
  cases herror : cx.error with
  | true =>
    have hsame : { cx with error := true } = cx := by rw [← herror]
    rw [hsame]
    simp only [if_true, in_error, on_pc_error, hlost.opening]
    split <;> rfl
  | false =>
    have hevents : (handle_cx_events .left t { cx with error := true }).1 =
        { cx with error := true } := events_opening ⟨hlost.fds, hlost.opening⟩
    have hread : handle_cx_read_once .left t cx = ({ cx with error := true }, false) := by
      unfold handle_cx_read_once
      rw [if_pos hlost.fds, hevents]
    rw [hread]
    simp [on_pc_error, hlost.opening]

/-- The connection is up, and nothing was read or written for too long. It is time to reconnect. -/
structure Idle (now : Int) (cx : baseHostCX) : Prop where
  up : cx.fds ≠ 0 ∧ cx.opening = false ∧ cx.error = false
  permanent : cx.permanent = true
  due : cx.should_reconnect_now now = true
  idle : cx.idle_timeout now = true

/-- It is connected, and what was connected is shut down with it. -/
theorem idle_once (h : Idle t.now cx) (hquiet : t.to_read = false) (hblocking : t.blocking = false) :
    (pc_once .left t cx).2 = false ∧ Lost (pc_once .left t cx).1 ∧
      (pc_once .left t cx).1.reconnects = t.now :: cx.reconnects := by
  obtain ⟨hfds, hopening, herror⟩ := h.up
  have hevents : handle_cx_events .left t cx = ((cx.reconnect t).shutdown, false) := by
    unfold handle_cx_events on_pc_error
    simp [baseHostCX.opening_timeout, hopening, h.idle]
  have hreconnect : Lost (cx.reconnect t).shutdown ∧
      (cx.reconnect t).shutdown.reconnects = t.now :: cx.reconnects := by
    rw [shutdown_of]
    unfold baseHostCX.reconnect
    rw [if_pos (by simp [h.due, h.permanent])]
    exact ⟨⟨rfl, by simp [baseHostCX.connect, baseHostCX.opened, hblocking]⟩, rfl⟩
  have hread : handle_cx_read_once .left t cx = ((cx.reconnect t).shutdown, false) := by
    unfold handle_cx_read_once
    rw [if_neg hfds]
    simp [read_write, hquiet, hevents]
  have honce : pc_once .left t cx = ((cx.reconnect t).shutdown, false) := by
    unfold pc_once
    simp [herror, hread, on_pc_error, hreconnect.1.opening]
  rw [honce]
  exact ⟨rfl, hreconnect⟩

/-- What is at the place is lost, was connected at `times`, and hides the `rest` of the vector. -/
structure Hidden (n : Nat) (times : List Int) (rest cxs : List baseHostCX) : Prop where
  lost : ∃ cx, cxs[n]? = some cx ∧ Lost cx ∧ cx.reconnects = times
  behind : cxs.drop (n + 1) = rest

variable {n : Nat} {times : List Int} {rest cxs : List baseHostCX}

/-- One turn, whether the loop comes to the place or not. -/
theorem hidden_loop (h : Hidden n times rest cxs) (ts : List turn) :
    Hidden n times rest (pc_loop .left ts cxs) := by
  obtain ⟨cx, hcx, hlost, htimes⟩ := h.lost
  cases hmeets : meets .left ts cxs n with
  | none =>
    refine ⟨⟨cx, (loop_same hmeets).trans hcx, hlost, htimes⟩, ?_⟩
    have hfrom := congrArg (List.drop 1) (loop_from hmeets)
    rw [List.drop_drop, List.drop_drop] at hfrom
    exact hfrom.trans h.behind
  | some t =>
    have honce := @lost_once t cx hlost
    have hat := loop_at hmeets hcx
    rw [honce] at hat
    refine ⟨⟨_, hat, ⟨hlost.fds, hlost.opening⟩, htimes⟩, ?_⟩
    exact (loop_behind hmeets hcx (congrArg Prod.snd honce)).trans h.behind

theorem hidden_run (h : Hidden n times rest cxs) (tss : List (List turn)) :
    Hidden n times rest (run .left tss cxs) := by
  induction tss generalizing cxs with
  | nil => exact h
  | cons ts tss ih => exact ih (hidden_loop h ts)

/-- On the left, without blocking I/O, a permanent connection that is idle for too long when the loop
comes to it, with nothing to read, is lost: after that turn it never has a socket and is never
connected again, and no connection behind it is looked at. -/
theorem idle_is_lost {ts : List turn} (hcx : cxs[n]? = some cx)
    (hmeets : meets .left ts cxs n = some t) (h : Idle t.now cx) (hquiet : t.to_read = false)
    (hblocking : t.blocking = false) (tss : List (List turn)) :
    ∃ lost, (run .left (ts :: tss) cxs)[n]? = some lost ∧ lost.fds = 0 ∧
      lost.reconnects = t.now :: cx.reconnects ∧
      (run .left (ts :: tss) cxs).drop (n + 1) = cxs.drop (n + 1) := by
  obtain ⟨hstops, hlost, htimes⟩ := idle_once h hquiet hblocking
  have hfirst : Hidden n (t.now :: cx.reconnects) (cxs.drop (n + 1)) (pc_loop .left ts cxs) :=
    ⟨⟨_, loop_at hmeets hcx, hlost, htimes⟩, loop_behind hmeets hcx hstops⟩
  obtain ⟨⟨lost, hat, hlost, htimes⟩, hbehind⟩ := hidden_run hfirst tss
  exact ⟨lost, hat, hlost.fds, htimes, hbehind⟩

theorem idle_is_lost_witness :
    ∃ lost, (run .left [[{ now := 4000 }, { now := 4000, fds := 5 }, { now := 4000 }],
        [{ now := 4001 }, { now := 4001 }], [{ now := 9000 }, { now := 9000, fds := 6 }]]
        [{ fds := 3, w_activity := 4000 }, { fds := 4 }, { fds := 7 }])[1]? = some lost ∧
      lost.fds = 0 ∧ lost.reconnects = [4000] ∧
      (run .left [[{ now := 4000 }, { now := 4000, fds := 5 }, { now := 4000 }],
        [{ now := 4001 }, { now := 4001 }], [{ now := 9000 }, { now := 9000, fds := 6 }]]
        [{ fds := 3, w_activity := 4000 }, { fds := 4 }, { fds := 7 }]).drop 2 = [{ fds := 7 }] := by
  have hidle : Idle 4000 { fds := 4 } := ⟨by decide, rfl, rfl, by decide⟩
  exact idle_is_lost (t := { now := 4000, fds := 5 }) rfl rfl hidle rfl rfl _

end

/-! ## Connections that come back -/

/-- One turn. -/
def step (s : side) (cxs : List baseHostCX) (ts : List turn) : Option (List baseHostCX) :=
  some (pc_loop s ts cxs)

section
variable {t : turn} {cx : baseHostCX} {n : Nat} {cxs : List baseHostCX}

end

end socle.pc
