-- What wait makes of the results of epoll_wait: which elements of the array it
-- reads, and which sockets it puts into which set.
import Socle.Epoll

namespace socle.poll

open lib.run

/-! ## The law -/

/-- What `epoll_wait` reports, round by round, until a round that is not full or an error. -/
def reported : List wait_result → List report
  | [] => []
  | .error _ :: _ => []
  | .ready ready :: rest =>
    if ready.1.length = EPOLLER_MAX_EVENTS then ready :: reported rest else [ready]

/-- The events of all rounds. -/
def events_of (results : List wait_result) : List epoll_event :=
  (reported results).flatMap Subtype.val

/-- Each round reads the array where the kernel wrote, and each socket is in the sets of its
events. -/
structure Recorded (results : List wait_result) (rounds : List round) (e : epoll) : Prop where
  inside : ∀ r ∈ rounds, ∀ u ∈ r.used, u.1 < EPOLLER_MAX_EVENTS
  exact : rounds.map (fun r => r.used.map Prod.snd) = (reported results).map Subtype.val
  in_set : ∀ ev ∈ events_of results, ev.has EPOLLIN → ev.fd ∈ e.in_set
  out_set : ∀ ev ∈ events_of results, ev.has EPOLLOUT → ev.fd ∈ e.out_set
  err_set : ∀ ev ∈ events_of results, ev.has (EPOLLERR ||| EPOLLHUP) → ev.fd ∈ e.err_set

/-- One round has events, and no event hides one of its bits behind another, unless the socket is
reported with that bit alone as well. -/
structure Plain (results : List wait_result) : Prop where
  one_round : (reported results).length ≤ 1
  writable : ∀ ev ∈ events_of results, ev.has EPOLLOUT → ev.has EPOLLIN →
    ∃ ev' ∈ events_of results, ev'.fd = ev.fd ∧ ev'.has EPOLLOUT ∧ ¬ ev'.has EPOLLIN
  failed : ∀ ev ∈ events_of results, ev.has (EPOLLERR ||| EPOLLHUP) →
    ev.has EPOLLIN ∨ ev.has EPOLLOUT →
    ∃ ev' ∈ events_of results, ev'.fd = ev.fd ∧ ¬ ev'.has EPOLLIN ∧ ¬ ev'.has EPOLLOUT

/-! ## One event -/

namespace epoll

@[simp] theorem clear_idle_watch_in_set (check : Int) (e : epoll) :
    (e.clear_idle_watch check).in_set = e.in_set := by
  unfold clear_idle_watch
  split <;> rfl

@[simp] theorem clear_idle_watch_out_set (check : Int) (e : epoll) :
    (e.clear_idle_watch check).out_set = e.out_set := by
  unfold clear_idle_watch
  split <;> rfl

@[simp] theorem clear_idle_watch_err_set (check : Int) (e : epoll) :
    (e.clear_idle_watch check).err_set = e.err_set := by
  unfold clear_idle_watch
  split <;> rfl

/-- `add` changes no more than what is monitored. -/
theorem add_monitored (socket : Int) (mask : UInt32) (e : epoll) :
    ∃ m, e.add socket mask = { e with monitored := m } := by
  unfold add
  split
  · exact ⟨e.monitored, rfl⟩
  · exact ⟨_, rfl⟩

theorem modify_monitored (socket : Int) (mask : UInt32) (e : epoll) :
    ∃ m, e.modify socket mask = { e with monitored := m } := by
  unfold modify
  split
  · exact ⟨_, rfl⟩
  · exact e.add_monitored socket mask

/-- The part of `on_event` that stops watching for the socket to be writable. -/
theorem remove_monitored (socket : Int) (e : epoll) :
    ∃ m, (if e.auto_epollout_remove then e.modify socket EPOLLIN else e) =
      { e with monitored := m } := by
  split
  · exact e.modify_monitored socket EPOLLIN
  · exact ⟨e.monitored, rfl⟩

/-- The set into which an event puts its socket: one set for each event. -/
theorem on_event_sets (ev : epoll_event) (e : epoll) :
    (e.on_event ev).in_set = (if ev.has EPOLLIN then e.in_set.insert ev.fd else e.in_set) ∧
      (e.on_event ev).out_set =
        (if ¬ ev.has EPOLLIN ∧ ev.has EPOLLOUT then e.out_set.insert ev.fd else e.out_set) ∧
      (e.on_event ev).err_set =
        (if ¬ ev.has EPOLLIN ∧ ¬ ev.has EPOLLOUT then e.err_set.insert ev.fd else e.err_set) := by
  unfold on_event
  by_cases hin : ev.has EPOLLIN
  · simp [hin]
  by_cases hout : ev.has EPOLLOUT
  · rw [if_neg hin, if_pos hout]
    obtain ⟨m, hm⟩ := remove_monitored ev.fd
      ({ e with out_set := e.out_set.insert ev.fd }.clear_idle_watch ev.fd)
    rw [hm]
    simp [hin, hout]
  · simp [hin, hout]

end epoll

/-! ## All events -/

section
variable (evs : List epoll_event) (e : epoll) (s : Int)

theorem mem_in_set : s ∈ (evs.foldl (fun e ev => e.on_event ev) e).in_set ↔
    s ∈ e.in_set ∨ ∃ ev ∈ evs, ev.fd = s ∧ ev.has EPOLLIN :=
  mem_foldl_put (S := epoll.in_set) (fun e ev => (e.on_event_sets ev).1) evs e s

theorem mem_out_set : s ∈ (evs.foldl (fun e ev => e.on_event ev) e).out_set ↔
    s ∈ e.out_set ∨ ∃ ev ∈ evs, ev.fd = s ∧ ¬ ev.has EPOLLIN ∧ ev.has EPOLLOUT :=
  mem_foldl_put (S := epoll.out_set) (fun e ev => (e.on_event_sets ev).2.1) evs e s

theorem mem_err_set : s ∈ (evs.foldl (fun e ev => e.on_event ev) e).err_set ↔
    s ∈ e.err_set ∨ ∃ ev ∈ evs, ev.fd = s ∧ ¬ ev.has EPOLLIN ∧ ¬ ev.has EPOLLOUT :=
  mem_foldl_put (S := epoll.err_set) (fun e ev => (e.on_event_sets ev).2.2) evs e s

end

/-! ## The rounds -/

namespace epoll

theorem foldl_add_monitored (mask : UInt32) (socks : List Int) (e : epoll) :
    ∃ m, socks.foldl (fun e s => e.add s mask) e = { e with monitored := m } := by
  induction socks generalizing e with
  | nil => exact ⟨e.monitored, rfl⟩
  | cons s rest ih =>
    obtain ⟨m, hm⟩ := e.add_monitored s mask
    obtain ⟨m', hm'⟩ := ih (e.add s mask)
    refine ⟨m', ?_⟩
    rw [List.foldl_cons, hm', hm]

/-- The rescans change what is monitored, and empty the two lists. -/
theorem rescans_monitored (e : epoll) :
    ∃ m, e.process_pre_wait_rescans =
      { e with monitored := m, rescan_set_in := [], rescan_set_out := [] } := by
  unfold process_pre_wait_rescans
  obtain ⟨m, hm⟩ := e.foldl_add_monitored EPOLLIN e.rescan_set_in
  obtain ⟨m', hm'⟩ := foldl_add_monitored (EPOLLIN ||| EPOLLOUT) e.rescan_set_out
    { e with monitored := m, rescan_set_in := [] }
  refine ⟨m', ?_⟩
  simp only [hm, hm']

/-- In front of `epoll_wait`: nothing but empty sets, or a look at both timers. -/
theorem pre_wait_cases (now : Nat) (e : epoll) :
    ((e.clear.click_timer_now now).1 = false ∧ e.pre_wait now = e.clear) ∨
      ((e.clear.click_timer_now now).1 = true ∧
        e.pre_wait now = epoll.process_pre_wait_idles (epoll.process_pre_wait_rescans
          { e.clear with
            rescan_timer := now
            idle_counter := e.idle_counter + e.clear.ms_diff now })) := by
  unfold pre_wait click_timer_now
  split
  · exact Or.inr ⟨rfl, rfl⟩
  · exact Or.inl ⟨rfl, rfl⟩

/-- `wait` starts with empty sets. -/
theorem pre_wait_sets (now : Nat) (e : epoll) :
    (e.pre_wait now).in_set = [] ∧ (e.pre_wait now).out_set = [] ∧ (e.pre_wait now).err_set = [] := by
  have hidles : ∀ e : epoll, e.process_pre_wait_idles.in_set = e.in_set ∧
      e.process_pre_wait_idles.out_set = e.out_set ∧
      e.process_pre_wait_idles.err_set = e.err_set := by
    intro e
    unfold process_pre_wait_idles
    split
    · simp only
      split <;> exact ⟨rfl, rfl, rfl⟩
    · exact ⟨rfl, rfl, rfl⟩
  unfold pre_wait click_timer_now
  by_cases hclick : e.clear.ms_diff now > rescan_msec
  · simp only [if_pos hclick, if_true]
    obtain ⟨m, hm⟩ := rescans_monitored { e.clear with
      rescan_timer := now, idle_counter := e.clear.idle_counter + e.clear.ms_diff now }
    rw [hm]
    exact hidles _
  · simp only [if_neg hclick]
    exact ⟨rfl, rfl, rfl⟩

/-- The elements of the array that the kernel wrote in this round. -/
theorem event_fill (behind : Nat → epoll_event) (ready : report) (e : epoll) :
    (List.range ready.1.length).map ({ e with events := e.events.fill ready }.event behind) =
      ready.1 := by
  apply List.ext_getElem
  · simp
  · intro i hi hi'
    simp [event, event_array.fill, List.getElem?_append_left, hi']

end epoll

section
variable {behind : Nat → epoll_event} {results : List wait_result} {nfds : Nat} {e e' : epoll}
variable {ret : Int} {rounds : List round}

theorem map_ready {o : Option (Int × epoll × List round)} {r : round}
    (h : o.map (fun (ret, e, rounds) => (ret, e, r :: rounds)) = some (ret, e', rounds)) :
    ∃ rest, o = some (ret, e', rest) ∧ rounds = r :: rest := by
  rw [Option.map_eq_some_iff] at h
  obtain ⟨⟨ret', e'', rest⟩, ho, heq⟩ := h
  cases heq
  exact ⟨rest, ho, rfl⟩

/-- There is a round for each report, and the first one reads all elements up to the running
total. -/
theorem wait_loop_rounds (h : epoll.wait_loop behind results nfds e = some (ret, e', rounds)) :
    rounds.map round.ready = reported results ∧
      ∀ r ∈ rounds.head?, r.used.length = nfds + r.ready.1.length := by
  induction results generalizing nfds e rounds with
  | nil => cases h
  | cons result rest ih =>
    cases result with
    | error eintr =>
      cases h
      exact ⟨rfl, by simp⟩
    | ready ready =>
      simp only [epoll.wait_loop] at h
      unfold reported
      split at h
      next hfull =>
        obtain ⟨rounds', hrest, rfl⟩ := map_ready h
        rw [if_pos hfull, List.map_cons, (ih hrest).1]
        exact ⟨rfl, by simp⟩
      next hshort =>
        cases h
        rw [if_neg hshort]
        exact ⟨rfl, by simp⟩

/-- With one report at most, `wait` goes through its events, and perhaps adds the enforced
sockets. -/
theorem wait_loop_one (hone : (reported results).length ≤ 1)
    (h : epoll.wait_loop behind results 0 e = some (ret, e', rounds)) :
    (∀ r ∈ rounds, ∀ u ∈ r.used, u.1 < EPOLLER_MAX_EVENTS) ∧
      rounds.map (fun r => r.used.map Prod.snd) = (reported results).map Subtype.val ∧
      ∃ a, e' = (events_of results).foldl (fun e ev => e.on_event ev) { e with events := a } ∨
        e' = epoll.enforced_to_inset
          ((events_of results).foldl (fun e ev => e.on_event ev) { e with events := a }) := by
  cases results with
  | nil => cases h
  | cons result rest =>
    cases result with
    | error eintr =>
      cases h
      exact ⟨by simp, rfl, e.events, Or.inl rfl⟩
    | ready ready =>
      have hread := epoll.event_fill behind ready e
      have hinside : ∀ u ∈ (List.range ready.1.length).map fun i =>
          (i, { e with events := e.events.fill ready }.event behind i),
          u.1 < EPOLLER_MAX_EVENTS := by
        intro u hu
        obtain ⟨i, hi, rfl⟩ := List.mem_map.mp hu
        exact (List.mem_range.mp hi).trans_le ready.2
      simp only [epoll.wait_loop, Nat.zero_add] at h
      have hrest : reported (.ready ready :: rest) = [ready] := by
        unfold reported at hone ⊢
        split at hone
        next hfull =>
          rw [if_pos hfull]
          simp only [List.length_cons] at hone
          rw [List.eq_nil_of_length_eq_zero (l := reported rest) (by omega)]
        next hshort => rw [if_neg hshort]
      have hevents : events_of (.ready ready :: rest) = ready.1 := by
        unfold events_of
        rw [hrest]
        simp
      rw [hrest, hevents]
      split at h
      next hfull =>
        obtain ⟨rounds', hloop, rfl⟩ := map_ready h
        -- the loop goes on, and the next call of `epoll_wait` fails
        have hnone : reported rest = [] := by
          unfold reported at hrest
          rw [if_pos hfull] at hrest
          exact (List.cons.inj hrest).2
        have hempty := (wait_loop_rounds hloop).1
        rw [hnone, List.map_eq_nil_iff] at hempty
        subst hempty
        refine ⟨by simpa using hinside, by simp [Function.comp_def, hread], e.events.fill ready, ?_⟩
        left
        cases rest with
        | nil => cases hloop
        | cons result rest =>
          cases result with
          | error eintr =>
            cases hloop
            rw [epoll.process_epoll_events, hread]
          | ready ready' =>
            unfold reported at hnone
            split at hnone <;> cases hnone
      next hshort =>
        cases h
        refine ⟨by simpa using hinside, by simp [Function.comp_def, hread], e.events.fill ready, ?_⟩
        right
        rw [epoll.process_epoll_events, hread]

/-- The second round reads the elements of the first one again, and those behind the array. -/
theorem wait_loop_many (hmany : 1 < (reported results).length)
    (h : epoll.wait_loop behind results nfds e = some (ret, e', rounds)) :
    rounds.map (fun r => r.used.map Prod.snd) ≠ (reported results).map Subtype.val := by
  cases results with
  | nil => cases h
  | cons result rest =>
    cases result with
    | error eintr =>
      simp [reported] at hmany
    | ready ready =>
      simp only [epoll.wait_loop] at h
      split at h
      next hfull =>
        obtain ⟨rounds', hloop, rfl⟩ := map_ready h
        obtain ⟨hready, hlen⟩ := wait_loop_rounds hloop
        have hreported : reported (.ready ready :: rest) = ready :: reported rest := by
          rw [reported, if_pos hfull]
        rw [hreported] at hmany ⊢
        intro heq
        have hsame := (List.cons.inj heq).2
        rw [← hready, List.map_map] at hsame
        cases rounds' with
        | nil =>
          rw [← hready] at hmany
          simp at hmany
        | cons r rs =>
          have hused : r.used.map Prod.snd = r.ready.1 := (List.cons.inj hsame).1
          have hlong := hlen r rfl
          have hlen' := congrArg List.length hused
          rw [List.length_map, hlong, hfull] at hlen'
          simp only [EPOLLER_MAX_EVENTS] at hlen'
          omega
      next hshort =>
        rw [reported, if_neg hshort] at hmany
        simp at hmany

/-- Where the sockets of one report end. -/
theorem wait_sets {now : Nat} (hone : (reported results).length ≤ 1)
    (h : epoll.wait behind now results e = some (ret, e', rounds)) :
    (∀ ev ∈ events_of results, ev.has EPOLLIN → ev.fd ∈ e'.in_set) ∧
      (∀ s, s ∈ e'.out_set ↔
        ∃ ev ∈ events_of results, ev.fd = s ∧ ¬ ev.has EPOLLIN ∧ ev.has EPOLLOUT) ∧
      (∀ s, s ∈ e'.err_set ↔
        ∃ ev ∈ events_of results, ev.fd = s ∧ ¬ ev.has EPOLLIN ∧ ¬ ev.has EPOLLOUT) := by
  obtain ⟨-, hout, herr⟩ := e.pre_wait_sets now
  obtain ⟨-, -, a, hsets⟩ := wait_loop_one hone h
  have hin_set : ∀ ev ∈ events_of results, ev.has EPOLLIN → ev.fd ∈ ((events_of results).foldl
      (fun (e : epoll) ev => e.on_event ev) { e.pre_wait now with events := a }).in_set := by
    intro ev hev hread
    rw [mem_in_set]
    exact Or.inr ⟨ev, hev, rfl, hread⟩
  have hout_set : ∀ s, s ∈ ((events_of results).foldl (fun (e : epoll) ev => e.on_event ev)
      { e.pre_wait now with events := a }).out_set ↔
        ∃ ev ∈ events_of results, ev.fd = s ∧ ¬ ev.has EPOLLIN ∧ ev.has EPOLLOUT := by
    intro s
    rw [mem_out_set, hout]
    simp
  have herr_set : ∀ s, s ∈ ((events_of results).foldl (fun (e : epoll) ev => e.on_event ev)
      { e.pre_wait now with events := a }).err_set ↔
        ∃ ev ∈ events_of results, ev.fd = s ∧ ¬ ev.has EPOLLIN ∧ ¬ ev.has EPOLLOUT := by
    intro s
    rw [mem_err_set, herr]
    simp
  rcases hsets with rfl | rfl
  · exact ⟨hin_set, hout_set, herr_set⟩
  · refine ⟨?_, hout_set, herr_set⟩
    intro ev hev hread
    refine (mem_foldl_put (S := fun w : set_type => w) (f := id) (c := fun _ => True)
      (fun w s => (if_pos trivial).symm) _ _ _).mpr (Or.inl ?_)
    exact hin_set ev hev hread

/-- Each `wait` records its rounds when, and only when, one round has events and no event hides
one of its bits. -/
theorem waits_record_their_rounds (behind : Nat → epoll_event) (now : Nat)
    (results : List wait_result) (e e' : epoll) (ret : Int) (rounds : List round)
    (h : epoll.wait behind now results e = some (ret, e', rounds)) :
    Recorded results rounds e' ↔ Plain results := by
  constructor
  · intro hr
    have hone : (reported results).length ≤ 1 := by
      by_contra hmany
      exact wait_loop_many (by omega) h hr.exact
    obtain ⟨-, hout_set, herr_set⟩ := wait_sets hone h
    refine ⟨hone, ?_, ?_⟩
    · intro ev hev hwritable _
      obtain ⟨ev', hev', hfd, hnot, hyes⟩ := (hout_set ev.fd).mp (hr.out_set ev hev hwritable)
      exact ⟨ev', hev', hfd, hyes, hnot⟩
    · intro ev hev hfailed _
      exact (herr_set ev.fd).mp (hr.err_set ev hev hfailed)
  · intro hp
    obtain ⟨hinside, hexact, -⟩ := wait_loop_one hp.one_round h
    obtain ⟨hin_set, hout_set, herr_set⟩ := wait_sets hp.one_round h
    refine ⟨hinside, hexact, hin_set, ?_, ?_⟩
    · intro ev hev hwritable
      rw [hout_set]
      by_cases hread : ev.has EPOLLIN
      · obtain ⟨ev', hev', hfd, hyes, hnot⟩ := hp.writable ev hev hwritable hread
        exact ⟨ev', hev', hfd, hnot, hyes⟩
      · exact ⟨ev, hev, rfl, hread, hwritable⟩
    · intro ev hev hfailed
      rw [herr_set]
      by_cases hhidden : ev.has EPOLLIN ∨ ev.has EPOLLOUT
      · exact hp.failed ev hev hfailed hhidden
      · rw [not_or] at hhidden
        exact ⟨ev, hev, rfl, hhidden.1, hhidden.2⟩

end

/-- A full round, and one event more. -/
def fifty_one : List wait_result :=
  [.ready ⟨.replicate 50 { events := EPOLLIN, fd := 5 }, List.length_replicate.le⟩,
    .ready ⟨[{ events := EPOLLIN, fd := 6 }], by decide⟩]

/-- Two sockets can be read, one can be written, and one failed. -/
def four_sockets : report :=
  ⟨[{ events := EPOLLIN, fd := 5 }, { events := EPOLLOUT, fd := 6 },
    { events := EPOLLERR ||| EPOLLHUP, fd := 7 }, { events := EPOLLIN, fd := 8 }], by decide⟩

theorem four_events_are_recorded :
    ∃ ret e rounds, epoll.wait (fun _ => {}) 0 [.ready four_sockets] {} = some (ret, e, rounds) ∧
      Recorded [.ready four_sockets] rounds e ∧ e.out_set = [6] ∧ e.err_set = [7] :=
  ⟨_, _, _, rfl, (waits_record_their_rounds (fun _ => {}) 0 _ {} _ _ _ rfl).mpr
    ⟨by decide, by decide, by decide⟩, by decide, by decide⟩

/-- The second round reads element 50 of an array of 50. -/
theorem the_next_round_reads_behind_the_array :
    ¬ ∀ (behind : Nat → epoll_event) (now : Nat) (results : List wait_result) (e e' : epoll)
      (ret : Int) (rounds : List round),
      epoll.wait behind now results e = some (ret, e', rounds) → Recorded results rounds e' := by
  intro hall
  obtain ⟨ret, e', rounds, h, hread⟩ : ∃ ret e' rounds,
      epoll.wait (fun _ => {}) 0 fifty_one {} = some (ret, e', rounds) ∧
        ∃ r ∈ rounds, ∃ u ∈ r.used, u.1 = 50 := by
    simp only [epoll.wait, fifty_one, epoll.wait_loop, List.length_replicate, EPOLLER_MAX_EVENTS,
      if_true]
    refine ⟨_, _, _, rfl, _, List.mem_cons_of_mem _ (List.mem_singleton_self _), ?_⟩
    exact ⟨_, List.mem_map.mpr ⟨50, List.mem_range.mpr (by decide), rfl⟩, rfl⟩
  obtain ⟨r, hr, u, hu, hlast⟩ := hread
  have hlt := (hall _ _ _ _ _ _ _ h).inside r hr u hu
  rw [hlast] at hlt
  exact absurd hlt (by decide)

/-! ## A wait is a run -/

def round.steps (r : round) : List operation :=
  .epoll_wait r.ready :: r.used.map fun u => .event u.2

theorem exec_events (evs : List epoll_event) (p : Poller) :
    ∃ p', exec step p (evs.map .event) = some p' ∧
      p'.epoll = evs.foldl (fun e ev => e.on_event ev) p.epoll := by
  induction evs generalizing p with
  | nil => exact ⟨p, rfl, rfl⟩
  | cons ev rest ih => exact ih _

/-- The steps of a round. -/
theorem exec_round (behind : Nat → epoll_event) (nfds : Nat) (ready : report) (p : Poller) :
    let e := { p.epoll with events := p.epoll.events.fill ready }
    ∃ p', exec step p (round.steps ⟨ready, (List.range nfds).map fun i => (i, e.event behind i)⟩) =
        some p' ∧ p'.epoll = e.process_epoll_events behind nfds := by
  simp only [round.steps, List.map_map, exec_cons, step, Option.bind_some]
  obtain ⟨p', hp, he⟩ := exec_events ((List.range nfds).map
    ({ p.epoll with events := p.epoll.events.fill ready }.event behind))
    { p with epoll := { p.epoll with events := p.epoll.events.fill ready }, due := [] }
  refine ⟨p', ?_, he⟩
  rw [← hp, List.map_map]
  rfl

theorem wait_loop_is_a_run {behind : Nat → epoll_event} {results : List wait_result} {nfds : Nat}
    {p : Poller} {ret : Int} {e' : epoll} {rounds : List round}
    (h : epoll.wait_loop behind results nfds p.epoll = some (ret, e', rounds)) :
    ∃ last p', (last = [] ∨ last = [.enforced_to_inset]) ∧
      exec step p (rounds.flatMap round.steps ++ last) = some p' ∧ p'.epoll = e' := by
  induction results generalizing nfds p rounds with
  | nil => cases h
  | cons result rest ih =>
    cases result with
    | error eintr =>
      cases h
      exact ⟨[], p, Or.inl rfl, rfl, rfl⟩
    | ready ready =>
      obtain ⟨q, hq, he⟩ := exec_round behind (nfds + ready.1.length) ready p
      simp only [epoll.wait_loop] at h
      split at h
      next =>
        obtain ⟨rounds', hloop, rfl⟩ := map_ready h
        rw [← he] at hloop
        obtain ⟨last, p', hlast, hrun, hp'⟩ := ih hloop
        refine ⟨last, p', hlast, ?_, hp'⟩
        rw [List.flatMap_cons, List.append_assoc, exec_append, hq]
        exact hrun
      next =>
        cases h
        refine ⟨[.enforced_to_inset], { q with epoll := q.epoll.enforced_to_inset, due := [] },
          Or.inr rfl, ?_, congrArg epoll.enforced_to_inset he⟩
        rw [List.flatMap_singleton, exec_append, hq]
        rfl

/-- What `wait` does is a run of the steps that the laws below are about. -/
theorem wait_is_a_run {behind : Nat → epoll_event} {results : List wait_result} {p : Poller}
    {ret : Int} {e' : epoll} {rounds : List round}
    (h : epoll.wait behind p.now results p.epoll = some (ret, e', rounds)) :
    ∃ last p', (last = [] ∨ last = [.enforced_to_inset]) ∧
      exec step p (.pre_wait :: (rounds.flatMap round.steps ++ last)) = some p' ∧ p'.epoll = e' := by
  obtain ⟨q, hq, he⟩ : ∃ q, step p .pre_wait = some q ∧ q.epoll = p.epoll.pre_wait p.now :=
    ⟨_, rfl, rfl⟩
  have hloop : epoll.wait_loop behind results 0 q.epoll = some (ret, e', rounds) := by
    rw [he]
    exact h
  obtain ⟨last, p', hlast, hrun, hp'⟩ := wait_loop_is_a_run hloop
  refine ⟨last, p', hlast, ?_, hp'⟩
  rw [exec_cons, hq]
  exact hrun

end socle.poll
