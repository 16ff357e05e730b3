-- Sockets that are taken out of the kernel's set now and put back later
-- (rescan_in, rescan_out and process_pre_wait_rescans of common/epoll.cpp).
import Socle.EpollWait

namespace socle.poll

open lib.run

/-! ## The law -/

/-- `mask` has all bits of `bits`. -/
def covers (mask bits : UInt32) : Bool :=
  mask &&& bits = bits

/-- What was due is monitored with all that was asked for, and what was asked for and is not due
yet is not forgotten. -/
structure Restored (p : Poller) : Prop where
  due : ∀ r ∈ p.due, ∃ mask, p.epoll.monitored r.1 = some mask ∧ covers mask r.2
  waiting : ∀ r ∈ p.asked, r.1 ∈ p.epoll.rescan_set_in ∧ r.2 = EPOLLIN ∨
    r.1 ∈ p.epoll.rescan_set_out ∧ r.2 = EPOLLIN ||| EPOLLOUT

/-- When the lists are gone through, no socket of them is monitored with less than what was asked
for, and a socket of the second list that is not monitored is not in the first one. -/
def Restorable (p : Poller) : operation → Prop
  | .pre_wait => p.clicks →
    (∀ s ∈ p.epoll.rescan_set_in, ∀ mask ∈ p.epoll.monitored s, covers mask EPOLLIN) ∧
      ∀ s ∈ p.epoll.rescan_set_out,
        (∀ mask ∈ p.epoll.monitored s, covers mask (EPOLLIN ||| EPOLLOUT)) ∧
          (p.epoll.monitored s = none → s ∉ p.epoll.rescan_set_in)
  | _ => True

/-! ## The two lists -/

/-- The requests are those of the two lists. -/
structure Matched (p : Poller) : Prop where
  rescan_in : ∀ s, (s, EPOLLIN) ∈ p.asked ↔ s ∈ p.epoll.rescan_set_in
  rescan_out : ∀ s, (s, EPOLLIN ||| EPOLLOUT) ∈ p.asked ↔ s ∈ p.epoll.rescan_set_out
  masks : ∀ r ∈ p.asked, r.2 = EPOLLIN ∨ r.2 = EPOLLIN ||| EPOLLOUT

theorem Matched.waiting {p : Poller} (h : Matched p) (r : Int × UInt32) (hr : r ∈ p.asked) :
    r.1 ∈ p.epoll.rescan_set_in ∧ r.2 = EPOLLIN ∨
      r.1 ∈ p.epoll.rescan_set_out ∧ r.2 = EPOLLIN ||| EPOLLOUT := by
  obtain ⟨s, mask⟩ := r
  rcases h.masks _ hr with rfl | rfl
  · exact Or.inl ⟨(h.rescan_in s).mp hr, rfl⟩
  · exact Or.inr ⟨(h.rescan_out s).mp hr, rfl⟩

theorem Matched.same {p p' : Poller} (h : Matched p) (hasked : p'.asked = p.asked)
    (hin : p'.epoll.rescan_set_in = p.epoll.rescan_set_in)
    (hout : p'.epoll.rescan_set_out = p.epoll.rescan_set_out) : Matched p' := by
  refine ⟨?_, ?_, ?_⟩
  · rw [hasked, hin]
    exact h.rescan_in
  · rw [hasked, hout]
    exact h.rescan_out
  · rw [hasked]
    exact h.masks

theorem Poller.mem_ask {p : Poller} {socket : Int} {mask : UInt32} {r : Int × UInt32} :
    r ∈ p.ask socket mask ↔ (0 < socket ∧ r = (socket, mask)) ∨ r ∈ p.asked := by
  unfold Poller.ask
  split
  next h => simp [List.mem_insert_iff, h.lt]
  next h => simp [h]

theorem Poller.mem_withdraw {p : Poller} {socket : Int} {mask : UInt32} {r : Int × UInt32} :
    r ∈ p.withdraw socket mask ↔ r ∈ p.asked ∧ ¬ (0 < socket ∧ r = (socket, mask)) := by
  unfold Poller.withdraw
  split
  next h => simp [h.lt]
  next h => simp [h]

theorem mem_erase {s : set_type} {socket t : Int} :
    t ∈ set_type.erase s socket ↔ t ∈ s ∧ t ≠ socket := by
  simp [set_type.erase]

namespace epoll

theorem mem_rescan_in {now : Nat} {socket t : Int} {e : epoll} :
    t ∈ (e.rescan_in now socket).rescan_set_in ↔ (0 < socket ∧ t = socket) ∨ t ∈ e.rescan_set_in := by
  unfold rescan_in
  split
  next h => simp [del, List.mem_insert_iff, h.lt]
  next h => simp [h]

theorem mem_rescan_out {now : Nat} {socket t : Int} {e : epoll} :
    t ∈ (e.rescan_out now socket).rescan_set_out ↔
      (0 < socket ∧ t = socket) ∨ t ∈ e.rescan_set_out := by
  unfold rescan_out
  split
  next h => simp [del, List.mem_insert_iff, h.lt]
  next h => simp [h]

theorem mem_cancel_rescan_in {socket t : Int} {e : epoll} :
    t ∈ (e.cancel_rescan_in socket).rescan_set_in ↔
      t ∈ e.rescan_set_in ∧ ¬ (0 < socket ∧ t = socket) := by
  unfold cancel_rescan_in
  split
  next h => simp [mem_erase, h.lt]
  next h => simp [h]

theorem mem_cancel_rescan_out {socket t : Int} {e : epoll} :
    t ∈ (e.cancel_rescan_out socket).rescan_set_out ↔
      t ∈ e.rescan_set_out ∧ ¬ (0 < socket ∧ t = socket) := by
  unfold cancel_rescan_out
  split
  next h => simp [mem_erase, h.lt]
  next h => simp [h]

theorem clear_idle_watch_lists (check : Int) (e : epoll) :
    (e.clear_idle_watch check).rescan_set_in = e.rescan_set_in ∧
      (e.clear_idle_watch check).rescan_set_out = e.rescan_set_out := by
  unfold clear_idle_watch
  split <;> exact ⟨rfl, rfl⟩

/-- An event leaves the two lists alone. -/
theorem on_event_lists (ev : epoll_event) (e : epoll) :
    (e.on_event ev).rescan_set_in = e.rescan_set_in ∧
      (e.on_event ev).rescan_set_out = e.rescan_set_out := by
  unfold on_event
  split
  · exact clear_idle_watch_lists ev.fd _
  split
  · obtain ⟨m, hm⟩ := remove_monitored ev.fd
      ({ e with out_set := e.out_set.insert ev.fd }.clear_idle_watch ev.fd)
    rw [hm]
    exact clear_idle_watch_lists ev.fd _
  · exact ⟨rfl, rfl⟩

theorem idles_same (e : epoll) :
    e.process_pre_wait_idles.rescan_set_in = e.rescan_set_in ∧
      e.process_pre_wait_idles.rescan_set_out = e.rescan_set_out ∧
      e.process_pre_wait_idles.monitored = e.monitored := by
  unfold process_pre_wait_idles
  split
  · simp only
    split <;> exact ⟨rfl, rfl, rfl⟩
  · exact ⟨rfl, rfl, rfl⟩

/-! ## What is monitored -/

/-- What is monitored after sockets were added: what was there stays as it was. -/
theorem foldl_add_lookup (mask : UInt32) (socks : List Int) (e : epoll) (s : Int) :
    (socks.foldl (fun e sock => e.add sock mask) e).monitored s =
      match e.monitored s with
      | some m => some m
      | none => if s ∈ socks then some mask else none := by
  induction socks generalizing e with
  | nil =>
    simp only [List.foldl_nil, List.not_mem_nil, if_false]
    cases e.monitored s <;> rfl
  | cons t rest ih =>
    rw [List.foldl_cons, ih]
    unfold add
    cases ht : e.monitored t with
    | some m =>
      by_cases hst : s = t
      · subst hst
        simp [ht]
      · simp [hst]
    | none =>
      by_cases hst : s = t
      · subst hst
        simp [ht]
      · simp [hst]

/-- What is monitored after the lists were gone through. The second list comes too late for a
socket of the first one. -/
theorem rescans_lookup (e : epoll) (s : Int) :
    e.process_pre_wait_rescans.monitored s =
      match e.monitored s with
      | some m => some m
      | none =>
        if s ∈ e.rescan_set_in then some EPOLLIN
        else if s ∈ e.rescan_set_out then some (EPOLLIN ||| EPOLLOUT) else none := by
  unfold process_pre_wait_rescans
  obtain ⟨m, hm⟩ := e.foldl_add_monitored EPOLLIN e.rescan_set_in
  have hfirst := foldl_add_lookup EPOLLIN e.rescan_set_in e s
  rw [hm] at hfirst
  simp only [hm]
  rw [foldl_add_lookup]
  simp only at hfirst ⊢
  rw [hfirst]
  cases e.monitored s with
  | some m => rfl
  | none =>
    by_cases hin : s ∈ e.rescan_set_in
    · simp [hin]
    · simp [hin]

/-- Only the lists and what is monitored count. -/
theorem rescans_monitored_eq {e f : epoll} (hmon : f.monitored = e.monitored)
    (hin : f.rescan_set_in = e.rescan_set_in) (hout : f.rescan_set_out = e.rescan_set_out) :
    f.process_pre_wait_rescans.monitored = e.process_pre_wait_rescans.monitored := by
  funext s
  rw [rescans_lookup, rescans_lookup, hmon, hin, hout]

end epoll

/-! ## Each run -/

/-- Each step but `wait` keeps the lists matched, and makes nothing due. -/
theorem step_matched {p p' : Poller} {a : operation} (h : Matched p) (ha : a ≠ .pre_wait)
    (hs : step p a = some p') : Matched p' ∧ p'.due = [] := by
  have hinj : EPOLLIN ≠ EPOLLIN ||| EPOLLOUT := by decide
  cases a with
  | pre_wait => exact absurd rfl ha
  | add socket mask =>
    cases hs
    obtain ⟨m, hm⟩ := p.epoll.add_monitored socket mask
    exact ⟨h.same rfl (by simp only [hm]) (by simp only [hm]), rfl⟩
  | modify socket mask =>
    cases hs
    obtain ⟨m, hm⟩ := p.epoll.modify_monitored socket mask
    exact ⟨h.same rfl (by simp only [hm]) (by simp only [hm]), rfl⟩
  | del socket =>
    cases hs
    exact ⟨h.same rfl rfl rfl, rfl⟩
  | rescan_in socket =>
    cases hs
    refine ⟨⟨?_, ?_, ?_⟩, rfl⟩
    · intro s
      simp only [Poller.mem_ask, epoll.mem_rescan_in, h.rescan_in, Prod.mk.injEq, and_true]
    · intro s
      have hout : (p.epoll.rescan_in p.now socket).rescan_set_out = p.epoll.rescan_set_out := by
        unfold epoll.rescan_in
        split <;> rfl
      simp only [Poller.mem_ask, hout, h.rescan_out, Prod.mk.injEq, hinj.symm, and_false, false_or]
    · intro r hr
      rcases Poller.mem_ask.mp hr with ⟨-, rfl⟩ | hr
      · exact Or.inl rfl
      · exact h.masks r hr
  | rescan_out socket =>
    cases hs
    refine ⟨⟨?_, ?_, ?_⟩, rfl⟩
    · intro s
      have hin : (p.epoll.rescan_out p.now socket).rescan_set_in = p.epoll.rescan_set_in := by
        unfold epoll.rescan_out
        split <;> rfl
      simp only [Poller.mem_ask, hin, h.rescan_in, Prod.mk.injEq, hinj, and_false, false_or]
    · intro s
      simp only [Poller.mem_ask, epoll.mem_rescan_out, h.rescan_out, Prod.mk.injEq, and_true]
    · intro r hr
      rcases Poller.mem_ask.mp hr with ⟨-, rfl⟩ | hr
      · exact Or.inr rfl
      · exact h.masks r hr
  | cancel_rescan_in socket =>
    cases hs
    refine ⟨⟨?_, ?_, ?_⟩, rfl⟩
    · intro s
      simp only [Poller.mem_withdraw, epoll.mem_cancel_rescan_in, h.rescan_in, Prod.mk.injEq,
        and_true]
    · intro s
      have hout : (p.epoll.cancel_rescan_in socket).rescan_set_out = p.epoll.rescan_set_out := by
        unfold epoll.cancel_rescan_in
        split <;> rfl
      simp only [Poller.mem_withdraw, hout, h.rescan_out, Prod.mk.injEq, hinj.symm, and_false,
        not_false_eq_true, and_true]
    · exact fun r hr => h.masks r (Poller.mem_withdraw.mp hr).1
  | cancel_rescan_out socket =>
    cases hs
    refine ⟨⟨?_, ?_, ?_⟩, rfl⟩
    · intro s
      have hin : (p.epoll.cancel_rescan_out socket).rescan_set_in = p.epoll.rescan_set_in := by
        unfold epoll.cancel_rescan_out
        split <;> rfl
      simp only [Poller.mem_withdraw, hin, h.rescan_in, Prod.mk.injEq, hinj, and_false,
        not_false_eq_true, and_true]
    · intro s
      simp only [Poller.mem_withdraw, epoll.mem_cancel_rescan_out, h.rescan_out, Prod.mk.injEq,
        and_true]
    · exact fun r hr => h.masks r (Poller.mem_withdraw.mp hr).1
  | enforce_in socket =>
    cases hs
    have hsame : (p.epoll.enforce_in socket).rescan_set_in = p.epoll.rescan_set_in ∧
        (p.epoll.enforce_in socket).rescan_set_out = p.epoll.rescan_set_out := by
      unfold epoll.enforce_in
      split <;> exact ⟨rfl, rfl⟩
    exact ⟨h.same rfl hsame.1 hsame.2, rfl⟩
  | set_idle_watch check =>
    cases hs
    exact ⟨h.same rfl rfl rfl, rfl⟩
  | clear_idle_watch check =>
    cases hs
    obtain ⟨hin, hout⟩ := p.epoll.clear_idle_watch_lists check
    exact ⟨h.same rfl hin hout, rfl⟩
  | advance ns =>
    cases hs
    exact ⟨h.same rfl rfl rfl, rfl⟩
  | epoll_wait ready =>
    cases hs
    exact ⟨h.same rfl rfl rfl, rfl⟩
  | event ev =>
    cases hs
    obtain ⟨hin, hout⟩ := p.epoll.on_event_lists ev
    exact ⟨h.same rfl hin hout, rfl⟩
  | enforced_to_inset =>
    cases hs
    exact ⟨h.same rfl rfl rfl, rfl⟩

/-- What `wait` makes of the requests. -/
theorem pre_wait_matched {p p' : Poller} (h : Matched p) (hs : step p .pre_wait = some p') :
    Matched p' ∧ ((p.clicks = false ∧ p'.due = []) ∨
      p.clicks = true ∧ p'.due = p.asked ∧
        p'.epoll.monitored = p.epoll.process_pre_wait_rescans.monitored) := by
  cases hs
  rcases p.epoll.pre_wait_cases p.now with ⟨hclick, heq⟩ | ⟨hclick, heq⟩
  · have hno : p.clicks = false := hclick
    refine ⟨h.same (by simp only [hno]; rfl) (by simp only [heq]; rfl) (by simp only [heq]; rfl), ?_⟩
    left
    exact ⟨hno, by simp only [hno]; rfl⟩
  · have hyes : p.clicks = true := hclick
    set e : epoll := { p.epoll.clear with
      rescan_timer := p.now
      idle_counter := p.epoll.idle_counter + p.epoll.clear.ms_diff p.now } with he
    obtain ⟨hin, hout, hmon⟩ := epoll.idles_same e.process_pre_wait_rescans
    obtain ⟨m, hm⟩ := e.rescans_monitored
    have hnil_in : e.process_pre_wait_rescans.rescan_set_in = [] := by rw [hm]
    have hnil_out : e.process_pre_wait_rescans.rescan_set_out = [] := by rw [hm]
    rw [← heq] at hin hout hmon
    refine ⟨⟨?_, ?_, ?_⟩, Or.inr ⟨hyes, if_pos hyes, ?_⟩⟩
    · intro s
      simp only [hyes, if_true, hin, hnil_in, List.not_mem_nil]
    · intro s
      simp only [hyes, if_true, hout, hnil_out, List.not_mem_nil]
    · intro r hr
      simp only [hyes, if_true, List.not_mem_nil] at hr
    · exact hmon.trans (epoll.rescans_monitored_eq rfl rfl rfl)

/-- When the requests are due, they are met just when they could be. -/
theorem due_iff {p : Poller} (h : Matched p) :
    (∀ r ∈ p.asked, ∃ mask, p.epoll.process_pre_wait_rescans.monitored r.1 = some mask ∧
        covers mask r.2) ↔
      (∀ s ∈ p.epoll.rescan_set_in, ∀ mask ∈ p.epoll.monitored s, covers mask EPOLLIN) ∧
        ∀ s ∈ p.epoll.rescan_set_out,
          (∀ mask ∈ p.epoll.monitored s, covers mask (EPOLLIN ||| EPOLLOUT)) ∧
            (p.epoll.monitored s = none → s ∉ p.epoll.rescan_set_in) := by
  have hin : covers EPOLLIN EPOLLIN = true := by decide
  have hout : covers (EPOLLIN ||| EPOLLOUT) (EPOLLIN ||| EPOLLOUT) = true := by decide
  have hless : covers EPOLLIN (EPOLLIN ||| EPOLLOUT) = false := by decide
  constructor
  · intro hmet
    refine ⟨fun s hs mask hmask => ?_, fun s hs => ⟨fun mask hmask => ?_, fun hnone hboth => ?_⟩⟩
    · obtain ⟨m, hm, hcov⟩ := hmet _ ((h.rescan_in s).mpr hs)
      rw [epoll.rescans_lookup, Option.mem_def.mp hmask] at hm
      rwa [Option.some.inj hm]
    · obtain ⟨m, hm, hcov⟩ := hmet _ ((h.rescan_out s).mpr hs)
      rw [epoll.rescans_lookup, Option.mem_def.mp hmask] at hm
      rwa [Option.some.inj hm]
    · obtain ⟨m, hm, hcov⟩ := hmet _ ((h.rescan_out s).mpr hs)
      rw [epoll.rescans_lookup, hnone] at hm
      simp only [if_pos hboth, Option.some.injEq] at hm
      rw [← hm, hless] at hcov
      cases hcov
  · rintro ⟨hfirst, hsecond⟩ ⟨s, bits⟩ hr
    rw [epoll.rescans_lookup]
    rcases h.waiting _ hr with ⟨hs, rfl⟩ | ⟨hs, rfl⟩
    · cases hmon : p.epoll.monitored s with
      | some mask => exact ⟨mask, rfl, hfirst s hs mask hmon⟩
      | none => exact ⟨EPOLLIN, if_pos hs, hin⟩
    · obtain ⟨hcov, hone⟩ := hsecond s hs
      cases hmon : p.epoll.monitored s with
      | some mask => exact ⟨mask, rfl, hcov mask hmon⟩
      | none => exact ⟨EPOLLIN ||| EPOLLOUT, by simp only [hone hmon, if_false, if_pos hs], hout⟩

/-- A step keeps the law just when the condition holds. -/
theorem step_restored {p p' : Poller} {a : operation} (h : Matched p) (hs : step p a = some p') :
    Restored p' ↔ Restorable p a := by
  by_cases ha : a = .pre_wait
  · subst ha
    obtain ⟨hmatched, ⟨hno, hdue⟩ | ⟨hyes, hdue, hmon⟩⟩ := pre_wait_matched h hs
    · refine ⟨fun _ hyes => absurd hyes (by simp [hno]), fun _ => ⟨?_, hmatched.waiting⟩⟩
      simp [hdue]
    · constructor
      · intro hlaw _
        apply (due_iff h).mp
        intro r hr
        rw [← hmon]
        exact hlaw.due r (hdue ▸ hr)
      · intro hcond
        refine ⟨?_, hmatched.waiting⟩
        rw [hdue, hmon]
        exact (due_iff h).mpr (hcond hyes)
  · obtain ⟨hmatched, hdue⟩ := step_matched h ha hs
    refine ⟨fun _ => ?_, fun _ => ⟨?_, hmatched.waiting⟩⟩
    · cases a with
      | pre_wait => exact absurd rfl ha
      | _ => trivial
    · simp [hdue]

/-- All that is due is monitored with what was asked for in each run that goes through the lists
only when each of their sockets can still get it, and in no other run. -/
theorem rescans_are_restored (now : Nat) (auto_epollout_remove : Bool) (idle_timeout_ms : Int)
    (ops : List operation) :
    Always step Restored (.start now auto_epollout_remove idle_timeout_ms) ops ↔
      Meets step Restorable (.start now auto_epollout_remove idle_timeout_ms) ops := by
  refine always_iff_meets (P := fun p => Matched p ∧ Restored p) (fun p h => h.2) ?_ ?_ ?_ ops
  · intro p a p' h hc hs
    have hmatched : Matched p' := by
      by_cases ha : a = .pre_wait
      · subst ha
        exact (pre_wait_matched h.1 hs).1
      · exact (step_matched h.1 ha hs).1
    exact ⟨hmatched, (step_restored h.1 hs).mpr hc⟩
  · intro p a p' h hc hs hlaw
    exact hc ((step_restored h.1 hs).mp hlaw)
  · refine ⟨⟨?_, ?_, ?_⟩, ⟨?_, ?_⟩⟩ <;> simp [Poller.start]

/-- Both masks are asked for socket 5. It is put back with the first of them, and to put it back
with the second fails. -/
theorem a_socket_of_both_lists_is_not_written :
    ¬ ∀ (now : Nat) (auto_epollout_remove : Bool) (idle_timeout_ms : Int) (ops : List operation),
      Always step Restored (.start now auto_epollout_remove idle_timeout_ms) ops := by
  intro hall
  have hlaw := always_exec (hall 0 true 1000
    [.rescan_in 5, .rescan_out 5, .advance (200 * ms), .pre_wait]) rfl
  obtain ⟨mask, hmask, hcov⟩ := hlaw.due (5, EPOLLIN ||| EPOLLOUT) (by decide)
  have hin : some EPOLLIN = some mask := hmask
  rw [← Option.some.inj hin] at hcov
  exact absurd hcov (by decide)

end socle.poll
