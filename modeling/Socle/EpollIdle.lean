-- Sockets that are reported as idle (set_idle_watch, clear_idle_watch and
-- process_pre_wait_idles of common/epoll.cpp).
import Socle.EpollWait

namespace socle.poll

open lib.run

/-! ## The law -/

/-- More than the idle timeout lies between the two times. -/
def epoll.period_passed (e : epoll) (since now : Nat) : Prop :=
  e.idle_timeout_ms * ms < (now : Int) - since

instance (e : epoll) (since now : Nat) : Decidable (e.period_passed since now) :=
  inferInstanceAs (Decidable (_ < _))

/-- Each socket that was reported was under watch for a full period, and no event came for it. A
socket that is not under watch is in none of the two sets. -/
structure Idle (p : Poller) : Prop where
  reports : ∀ r ∈ p.idled, (∃ since ∈ r.watched_at, p.epoll.period_passed since r.now) ∧
    r.disturbed = false
  cleared : ∀ s, p.watched_at s = none →
    s ∉ p.epoll.idle_watched_pre ∧ s ∉ p.epoll.idle_watched

/-- The counter of `wait` after this click. -/
def Poller.counted (p : Poller) : Int :=
  p.epoll.idle_counter + p.epoll.clear.ms_diff p.now

/-- `wait` changes the idle round now. -/
def Poller.toggles (p : Poller) : Prop :=
  p.clicks = true ∧ p.counted > p.epoll.idle_timeout_ms

/-- No socket is in both sets when its watch is cleared. When the older set is reported, no event
came for a socket of it, and one that was put under watch again was so for a full period. -/
def Watchable (p : Poller) : operation → Prop
  | .clear_idle_watch s => ¬ (s ∈ p.epoll.idle_watched_pre ∧ s ∈ p.epoll.idle_watched)
  | .event ev => ev.has (EPOLLIN ||| EPOLLOUT) →
    ¬ (ev.fd ∈ p.epoll.idle_watched_pre ∧ ev.fd ∈ p.epoll.idle_watched)
  | .pre_wait => p.toggles → p.epoll.idle_round = false → ∀ s ∈ p.epoll.idle_watched,
    p.disturbed s = false ∧ (s ∈ p.epoll.idle_watched_pre →
      ∀ since ∈ p.watched_at s, p.epoll.period_passed since p.now)
  | _ => True

/-! ## The two sets -/

theorem epoll_event.has_or (ev : epoll_event) (a b : UInt32) :
    ev.has (a ||| b) = true ↔ ev.has a = true ∨ ev.has b = true := by
  have hdistrib : ev.events &&& (a ||| b) = (ev.events &&& a) ||| (ev.events &&& b) :=
    UInt32.toBitVec_inj.mp BitVec.and_or_distrib_left
  simp only [has, decide_eq_true_eq, ne_eq, hdistrib, UInt32.or_eq_zero_iff]
  tauto

namespace epoll

/-- The machinery of idle sockets is the same in both. -/
structure SameIdle (e f : epoll) : Prop where
  pre : f.idle_watched_pre = e.idle_watched_pre
  watched : f.idle_watched = e.idle_watched
  round : f.idle_round = e.idle_round
  counter : f.idle_counter = e.idle_counter
  timeout : f.idle_timeout_ms = e.idle_timeout_ms

theorem mem_clear_idle_watch_pre {check s : Int} {e : epoll} :
    s ∈ (e.clear_idle_watch check).idle_watched_pre ↔ s ∈ e.idle_watched_pre ∧ s ≠ check := by
  unfold clear_idle_watch
  split
  next h => simp [set_type.erase]
  next h =>
    constructor
    · exact fun hs => ⟨hs, fun heq => h (heq ▸ hs)⟩
    · exact And.left

/-- The older set keeps a socket that was in both. -/
theorem mem_clear_idle_watch {check s : Int} {e : epoll} :
    s ∈ (e.clear_idle_watch check).idle_watched ↔
      s ∈ e.idle_watched ∧ (s = check → check ∈ e.idle_watched_pre) := by
  unfold clear_idle_watch
  split
  next h => simp [h]
  next h => simp [h, set_type.erase]

theorem clear_idle_watch_rest (check : Int) (e : epoll) :
    (e.clear_idle_watch check).idle_round = e.idle_round ∧
      (e.clear_idle_watch check).idle_counter = e.idle_counter ∧
      (e.clear_idle_watch check).idle_timeout_ms = e.idle_timeout_ms ∧
      (e.clear_idle_watch check).rescan_timer = e.rescan_timer := by
  unfold clear_idle_watch
  split <;> exact ⟨rfl, rfl, rfl, rfl⟩

/-- A read or write event clears the watch, another event leaves it. -/
theorem on_event_idle (ev : epoll_event) (e : epoll) :
    let f := if ev.has (EPOLLIN ||| EPOLLOUT) then e.clear_idle_watch ev.fd else e
    SameIdle f (e.on_event ev) ∧ (e.on_event ev).rescan_timer = e.rescan_timer := by
  have hclear : ∀ f : epoll, f.idle_watched_pre = e.idle_watched_pre →
      f.idle_watched = e.idle_watched → f.idle_round = e.idle_round →
      f.idle_counter = e.idle_counter → f.idle_timeout_ms = e.idle_timeout_ms →
      SameIdle (e.clear_idle_watch ev.fd) (f.clear_idle_watch ev.fd) := by
    intro f hpre hwatched hround hcounter htimeout
    unfold clear_idle_watch
    rw [hpre]
    split
    · exact ⟨rfl, hwatched, hround, hcounter, htimeout⟩
    · exact ⟨rfl, by simp only [hwatched], hround, hcounter, htimeout⟩
  simp only [epoll_event.has_or]
  unfold on_event
  by_cases hin : ev.has EPOLLIN
  · simp only [hin, true_or, if_true]
    exact ⟨hclear _ rfl rfl rfl rfl rfl, (clear_idle_watch_rest ev.fd _).2.2.2⟩
  by_cases hout : ev.has EPOLLOUT
  · simp only [hin, hout, or_true, if_true, Bool.false_eq_true, if_false]
    obtain ⟨m, hm⟩ := remove_monitored ev.fd
      ({ e with out_set := e.out_set.insert ev.fd }.clear_idle_watch ev.fd)
    rw [hm]
    obtain ⟨hpre, hwatched, hround, hcounter, htimeout⟩ :=
      hclear { e with out_set := e.out_set.insert ev.fd } rfl rfl rfl rfl rfl
    exact ⟨⟨hpre, hwatched, hround, hcounter, htimeout⟩, (clear_idle_watch_rest ev.fd _).2.2.2⟩
  · simp only [hin, hout, Bool.false_eq_true, or_false, if_false]
    exact ⟨⟨rfl, rfl, rfl, rfl, rfl⟩, trivial⟩

/-- What one set has after the other was put into it. -/
theorem mem_foldl_insert (from_set into : set_type) (s : Int) :
    s ∈ from_set.foldl (fun w s => w.insert s) into ↔ s ∈ into ∨ s ∈ from_set := by
  rw [mem_foldl_put (S := fun w : set_type => w) (f := fun b : Int => b) (c := fun _ => True)
    (fun e b => by simp)]
  simp

end epoll

/-- What `wait` does to the machinery: nothing, or it counts, or it toggles the idle round. -/
theorem pre_wait_idle (p : Poller) :
    (p.clicks = false ∧ p.epoll.pre_wait p.now = p.epoll.clear) ∨
      ∃ m, let e := { p.epoll.clear with
        monitored := m, rescan_set_in := [], rescan_set_out := [], rescan_timer := p.now }
      p.clicks = true ∧
        ((¬ p.counted > p.epoll.idle_timeout_ms ∧
            p.epoll.pre_wait p.now = { e with idle_counter := p.counted }) ∨
          (p.counted > p.epoll.idle_timeout_ms ∧ p.epoll.idle_round = true ∧
            p.epoll.pre_wait p.now = { e with
              idle_counter := 0
              idle_round := false
              idle_watched :=
                p.epoll.idle_watched_pre.foldl (fun w s => w.insert s) p.epoll.idle_watched
              idle_watched_pre := [] }) ∨
          (p.counted > p.epoll.idle_timeout_ms ∧ p.epoll.idle_round = false ∧
            p.epoll.pre_wait p.now = { e with
              idle_counter := 0
              idle_round := true
              idle_set := p.epoll.idle_watched.foldl (fun w s => w.insert s) []
              idle_watched := [] })) := by
  rcases p.epoll.pre_wait_cases p.now with ⟨hclick, heq⟩ | ⟨hclick, heq⟩
  · exact Or.inl ⟨hclick, heq⟩
  · obtain ⟨m, hm⟩ := epoll.rescans_monitored { p.epoll.clear with
      rescan_timer := p.now, idle_counter := p.counted }
    have hpre : p.epoll.pre_wait p.now = epoll.process_pre_wait_idles _ := heq.trans (congrArg _ hm)
    refine Or.inr ⟨m, hclick, ?_⟩
    rw [hpre]
    unfold epoll.process_pre_wait_idles
    by_cases hcount : p.counted > p.epoll.idle_timeout_ms
    · have hcount' : p.counted > p.epoll.clear.idle_timeout_ms := hcount
      rw [if_pos hcount']
      cases hround : p.epoll.idle_round with
      | true =>
        have hround' : p.epoll.clear.idle_round = true := hround
        simp only [hround']
        exact Or.inr (Or.inl ⟨hcount, trivial, rfl⟩)
      | false =>
        have hround' : p.epoll.clear.idle_round = false := hround
        simp only [hround']
        exact Or.inr (Or.inr ⟨hcount, trivial, rfl⟩)
    · have hcount' : ¬ p.counted > p.epoll.clear.idle_timeout_ms := hcount
      rw [if_neg hcount']
      exact Or.inl ⟨hcount, rfl⟩

/-! ## Each run -/

/-- The older set is filled while the idle round is 0, with sockets that were under watch before
the counter was reset. -/
structure Generations (p : Poller) : Prop where
  timer : p.epoll.rescan_timer ≤ p.now
  past : ∀ s, ∀ since ∈ p.watched_at s, since ≤ p.now
  filled : p.epoll.idle_round = true → p.epoll.idle_watched = []
  moved : p.epoll.idle_round = false → ∃ moved : Nat,
    p.epoll.idle_counter * ms ≤ (p.epoll.rescan_timer : Int) - moved ∧
      ∀ s ∈ p.epoll.idle_watched, s ∉ p.epoll.idle_watched_pre →
        ∀ since ∈ p.watched_at s, since ≤ moved

open epoll (SameIdle)

theorem Generations.same {p p' : Poller} (h : Generations p) (hsame : SameIdle p.epoll p'.epoll)
    (hwatched : p'.watched_at = p.watched_at) (hnow : p.now ≤ p'.now)
    (hold : p.epoll.rescan_timer ≤ p'.epoll.rescan_timer)
    (htimer : p'.epoll.rescan_timer ≤ p'.now) : Generations p' := by
  refine ⟨htimer, ?_, ?_, ?_⟩
  · intro s since hs
    rw [hwatched] at hs
    exact (h.past s since hs).trans hnow
  · rw [hsame.round, hsame.watched]
    exact h.filled
  · rw [hsame.round, hsame.watched, hsame.pre, hsame.counter, hwatched]
    intro hround
    obtain ⟨moved, hcount, hmoved⟩ := h.moved hround
    exact ⟨moved, by omega, hmoved⟩

theorem Idle.same {p p' : Poller} (h : Idle p) (hsame : SameIdle p.epoll p'.epoll)
    (hwatched : p'.watched_at = p.watched_at) (hidled : p'.idled = p.idled) : Idle p' := by
  refine ⟨?_, ?_⟩
  · rw [hidled]
    unfold epoll.period_passed
    rw [hsame.timeout]
    exact h.reports
  · rw [hwatched, hsame.pre, hsame.watched]
    exact h.cleared

/-- To clear the watch of a socket works but for one that is in both sets. -/
theorem clear_watch {p p' : Poller} {s : Int} (h : Generations p) (hlaw : Idle p)
    (hsame : SameIdle (p.epoll.clear_idle_watch s) p'.epoll)
    (htimer : p'.epoll.rescan_timer = p.epoll.rescan_timer) (hnow : p'.now = p.now)
    (hwatched : p'.watched_at = Function.update p.watched_at s none)
    (hidled : p'.idled = p.idled) :
    Generations p' ∧
      (Idle p' ↔ ¬ (s ∈ p.epoll.idle_watched_pre ∧ s ∈ p.epoll.idle_watched)) := by
  obtain ⟨hround, hcounter, htimeout, -⟩ := p.epoll.clear_idle_watch_rest s
  have hstill : ∀ t, ∀ since ∈ p'.watched_at t, t ≠ s ∧ since ∈ p.watched_at t := by
    intro t since ht
    rw [hwatched] at ht
    by_cases hts : t = s
    · subst hts
      simp at ht
    · rw [Function.update_of_ne hts] at ht
      exact ⟨hts, ht⟩
  refine ⟨{
      timer := by
        rw [htimer, hnow]
        exact h.timer
      past := by
        intro t since ht
        rw [hnow]
        exact h.past t since (hstill t since ht).2
      filled := by
        intro hr
        rw [hsame.round, hround] at hr
        apply List.eq_nil_iff_forall_not_mem.mpr
        intro t ht
        rw [hsame.watched, epoll.mem_clear_idle_watch, h.filled hr] at ht
        exact absurd ht.1 List.not_mem_nil
      moved := by
        intro hr
        rw [hsame.round, hround] at hr
        obtain ⟨moved, hcount, hmoved⟩ := h.moved hr
        refine ⟨moved, by rw [hsame.counter, hcounter, htimer]; exact hcount, ?_⟩
        intro t ht hpre since hsince
        rw [hsame.watched, epoll.mem_clear_idle_watch] at ht
        rw [hsame.pre, epoll.mem_clear_idle_watch_pre] at hpre
        obtain ⟨hts, hsince⟩ := hstill t since hsince
        exact hmoved t ht.1 (fun hmem => hpre ⟨hmem, hts⟩) since hsince }, ?_, ?_⟩
  · intro hlaw' hboth
    have hnone : p'.watched_at s = none := by rw [hwatched, Function.update_self]
    have hgone := (hlaw'.cleared s hnone).2
    rw [hsame.watched, epoll.mem_clear_idle_watch] at hgone
    exact hgone ⟨hboth.2, fun _ => hboth.1⟩
  · intro hone
    refine ⟨?_, ?_⟩
    · rw [hidled]
      unfold epoll.period_passed
      rw [hsame.timeout, htimeout]
      exact hlaw.reports
    · intro t ht
      rw [hsame.pre, hsame.watched, epoll.mem_clear_idle_watch_pre, epoll.mem_clear_idle_watch]
      by_cases hts : t = s
      · subst hts
        exact ⟨fun hmem => hmem.2 rfl, fun hmem => hone ⟨hmem.2 rfl, hmem.1⟩⟩
      · rw [hwatched, Function.update_of_ne hts] at ht
        obtain ⟨hpre, hold⟩ := hlaw.cleared t ht
        exact ⟨fun hmem => hpre hmem.1, fun hmem => hold hmem.1⟩

/-- To put a socket under watch is always fine. -/
theorem set_watch {p p' : Poller} {check : Int} (h : Generations p) (hlaw : Idle p)
    (he : p'.epoll = p.epoll.set_idle_watch check) (hnow : p'.now = p.now)
    (hwatched : p'.watched_at = Function.update p.watched_at check (some p.now))
    (hidled : p'.idled = p.idled) : Generations p' ∧ Idle p' := by
  have hother : ∀ s, s ≠ check → p'.watched_at s = p.watched_at s := by
    intro s hne
    rw [hwatched, Function.update_of_ne hne]
  have hself : p'.watched_at check = some p.now := by rw [hwatched, Function.update_self]
  have hpre : ∀ s, s ∈ p'.epoll.idle_watched_pre ↔ s = check ∨ s ∈ p.epoll.idle_watched_pre := by
    intro s
    rw [he]
    exact List.mem_insert_iff
  constructor
  · exact {
      timer := by
        rw [he, hnow]
        exact h.timer
      past := by
        intro s since hsince
        rw [hnow]
        by_cases hsc : s = check
        · rw [hsc, hself] at hsince
          exact (Option.some.inj hsince).ge
        · rw [hother s hsc] at hsince
          exact h.past s since hsince
      filled := by
        rw [he]
        exact h.filled
      moved := by
        intro hr
        rw [he] at hr
        obtain ⟨moved, hle, hmoved⟩ := h.moved hr
        refine ⟨moved, by rw [he]; exact hle, fun s hs hyoung since hsince => ?_⟩
        rw [hpre, not_or] at hyoung
        rw [hother s hyoung.1] at hsince
        rw [he] at hs
        exact hmoved s hs hyoung.2 since hsince }
  · exact {
      reports := by
        rw [hidled, he]
        exact hlaw.reports
      cleared := by
        intro s hs
        have hne : s ≠ check := by
          rintro rfl
          rw [hself] at hs
          cases hs
        rw [hother s hne] at hs
        obtain ⟨hyoung, hold⟩ := hlaw.cleared s hs
        rw [hpre, not_or, he]
        exact ⟨⟨hne, hyoung⟩, hold⟩ }

theorem Generations.counted_le {p : Poller} {moved : Nat} (h : Generations p)
    (hcount : p.epoll.idle_counter * ms ≤ (p.epoll.rescan_timer : Int) - moved) :
    p.counted * ms ≤ (p.now : Int) - moved := by
  have htimer := h.timer
  have hdiff : p.epoll.clear.ms_diff p.now * ms ≤ (p.now : Int) - p.epoll.rescan_timer := by
    have hcast : p.epoll.clear.ms_diff p.now = ((p.now - p.epoll.rescan_timer) / ms : Nat) := rfl
    have hdiv := Nat.div_mul_le_self (p.now - p.epoll.rescan_timer) ms
    rw [hcast]
    omega
  have hsum : p.counted * ms = p.epoll.idle_counter * ms + p.epoll.clear.ms_diff p.now * ms :=
    Int.add_mul _ _ _
  omega

/-- A full period lies between the move to the older set and the report. -/
theorem Generations.full_period {p : Poller} {moved since : Nat} (h : Generations p)
    (hcount : p.epoll.idle_counter * ms ≤ (p.epoll.rescan_timer : Int) - moved)
    (hover : p.counted > p.epoll.idle_timeout_ms) (hsince : since ≤ moved) :
    p.epoll.period_passed since p.now := by
  have hless : p.epoll.idle_timeout_ms * ms < p.counted * ms := by
    apply mul_lt_mul_of_pos_right hover
    decide
  have hle := h.counted_le hcount
  unfold epoll.period_passed
  omega

/-- With no report, the law is about the two sets. -/
theorem idle_iff_of_no_report {p : Poller} (h : p.idled = []) :
    Idle p ↔ ∀ s, p.watched_at s = none →
      s ∉ p.epoll.idle_watched_pre ∧ s ∉ p.epoll.idle_watched := by
  refine ⟨fun hlaw => hlaw.cleared, fun hcleared => ⟨?_, hcleared⟩⟩
  rw [h]
  exact fun r hr => absurd hr List.not_mem_nil

/-- `wait` keeps the law just when the sockets that it reports may be reported. -/
theorem pre_wait_idles {p p' : Poller} (h : Generations p) (hlaw : Idle p)
    (hs : step p .pre_wait = some p') :
    Generations p' ∧ (Idle p' ↔ Watchable p .pre_wait) := by
  obtain ⟨he, hnow, hwatched, hidled⟩ : p'.epoll = p.epoll.pre_wait p.now ∧ p'.now = p.now ∧
      p'.watched_at = p.watched_at ∧
        p'.idled = (p.epoll.pre_wait p.now).idle_set.map p.reported := by
    cases hs
    exact ⟨rfl, rfl, rfl, rfl⟩
  have hpast : ∀ s, ∀ since ∈ p'.watched_at s, since ≤ p'.now := by
    rw [hwatched, hnow]
    exact h.past
  rcases pre_wait_idle p with ⟨hclick, heq⟩ | ⟨m, hclick, ⟨hcount, heq⟩ | ⟨hcount, hround, heq⟩ |
      ⟨hcount, hround, heq⟩⟩ <;> rw [heq] at he hidled
  · -- no click: the sets stay as they are
    have hno : ¬ p.toggles := fun htog => Bool.false_ne_true (hclick.symm.trans htog.1)
    have hsame : SameIdle p.epoll p'.epoll := by
      rw [he]
      exact ⟨rfl, rfl, rfl, rfl, rfl⟩
    have htimer : p'.epoll.rescan_timer = p.epoll.rescan_timer := by rw [he]; rfl
    refine ⟨h.same hsame hwatched hnow.ge htimer.ge (by rw [htimer, hnow]; exact h.timer), ?_⟩
    refine iff_of_true ?_ fun htog => absurd htog hno
    rw [idle_iff_of_no_report hidled, hwatched, hsame.pre, hsame.watched]
    exact hlaw.cleared
  · -- the counter is not over the timeout yet
    have hno : ¬ p.toggles := fun htog => hcount htog.2
    refine ⟨⟨?_, hpast, ?_, ?_⟩, iff_of_true ?_ fun htog => absurd htog hno⟩
    · rw [he, hnow]
    · rw [he]
      exact h.filled
    · rw [he, hwatched]
      intro hr
      obtain ⟨moved, hle, hmoved⟩ := h.moved hr
      refine ⟨moved, ?_, hmoved⟩
      exact h.counted_le hle
    · rw [idle_iff_of_no_report hidled, hwatched, he]
      exact hlaw.cleared
  · -- the younger set becomes the older one
    have hnil : p.epoll.idle_watched = [] := h.filled hround
    have hno : p.epoll.idle_round ≠ false := by rw [hround]; decide
    refine ⟨⟨?_, hpast, ?_, ?_⟩, iff_of_true ?_ fun _ hr => absurd hr hno⟩
    · rw [he, hnow]
    · intro hr
      rw [he] at hr
      cases hr
    · rw [he]
      refine fun _ => ⟨p.now, by simp, fun s _ _ since hsince => ?_⟩
      exact (hpast s since hsince).trans hnow.le
    · rw [idle_iff_of_no_report hidled, hwatched, he]
      intro s hs
      refine ⟨List.not_mem_nil, ?_⟩
      rw [epoll.mem_foldl_insert, hnil]
      exact not_or.mpr ⟨List.not_mem_nil, (hlaw.cleared s hs).1⟩
  · -- the older set is reported
    refine ⟨⟨?_, hpast, ?_, ?_⟩, ?_, ?_⟩
    · rw [he, hnow]
    · rw [he]
      exact fun _ => rfl
    · intro hr
      rw [he] at hr
      cases hr
    · intro hlaw' _ _ s hs
      have hmem : p.reported s ∈ p'.idled := by
        rw [hidled]
        apply List.mem_map_of_mem
        rw [epoll.mem_foldl_insert]
        exact Or.inr hs
      obtain ⟨⟨since, hsince, hpassed⟩, hquiet⟩ := hlaw'.reports _ hmem
      refine ⟨hquiet, fun _ t ht => ?_⟩
      have hts : t = since := Option.some.inj (ht.symm.trans hsince)
      rw [hts]
      rw [he] at hpassed
      exact hpassed
    · intro hcond
      refine ⟨?_, ?_⟩
      · rw [hidled, List.forall_mem_map]
        intro s hs
        rw [epoll.mem_foldl_insert] at hs
        have hold : s ∈ p.epoll.idle_watched := hs.resolve_left List.not_mem_nil
        obtain ⟨hquiet, hagain⟩ := hcond ⟨hclick, hcount⟩ hround s hold
        refine ⟨?_, hquiet⟩
        obtain ⟨since, hsince⟩ : ∃ since, p.watched_at s = some since := by
          apply Option.ne_none_iff_exists'.mp
          exact fun hnone => (hlaw.cleared s hnone).2 hold
        refine ⟨since, hsince, ?_⟩
        have hpassed : p.epoll.period_passed since p.now := by
          by_cases hpre : s ∈ p.epoll.idle_watched_pre
          · exact hagain hpre since hsince
          · obtain ⟨moved, hle, hmoved⟩ := h.moved hround
            exact h.full_period hle hcount (hmoved s hold hpre since hsince)
        rw [he]
        exact hpassed
      · rw [hwatched, he]
        exact fun s hs => ⟨(hlaw.cleared s hs).1, List.not_mem_nil⟩

/-- One step keeps the generations, and keeps the law just when the condition holds. -/
theorem step_idle {p p' : Poller} {a : operation} (h : Generations p) (hlaw : Idle p)
    (hs : step p a = some p') : Generations p' ∧ (Idle p' ↔ Watchable p a) := by
  -- most steps leave the machinery alone
  have hplain : SameIdle p.epoll p'.epoll → p'.watched_at = p.watched_at → p'.idled = p.idled →
      p.now ≤ p'.now → p'.epoll.rescan_timer = p.epoll.rescan_timer ∨
        p'.epoll.rescan_timer = p.now → Generations p' ∧ Idle p' := by
    intro hsame hwatched hidled hnow htimer
    have hle := h.timer
    refine ⟨h.same hsame hwatched hnow ?_ ?_, hlaw.same hsame hwatched hidled⟩ <;> omega
  have hiff : ∀ {c : Prop}, c → Generations p' ∧ Idle p' → Generations p' ∧ (Idle p' ↔ c) :=
    fun hc hg => ⟨hg.1, iff_of_true hg.2 hc⟩
  cases a with
  | pre_wait => exact pre_wait_idles h hlaw hs
  | add socket mask =>
    cases hs
    obtain ⟨m, hm⟩ := p.epoll.add_monitored socket mask
    refine hiff trivial (hplain ?_ rfl rfl le_rfl ?_) <;> simp only [hm]
    · exact ⟨rfl, rfl, rfl, rfl, rfl⟩
    · exact Or.inl trivial
  | modify socket mask =>
    cases hs
    obtain ⟨m, hm⟩ := p.epoll.modify_monitored socket mask
    refine hiff trivial (hplain ?_ rfl rfl le_rfl ?_) <;> simp only [hm]
    · exact ⟨rfl, rfl, rfl, rfl, rfl⟩
    · exact Or.inl trivial
  | del socket =>
    cases hs
    exact hiff trivial (hplain ⟨rfl, rfl, rfl, rfl, rfl⟩ rfl rfl le_rfl (Or.inl rfl))
  | rescan_in socket =>
    cases hs
    refine hiff trivial (hplain ?_ rfl rfl le_rfl ?_) <;> simp only [epoll.rescan_in]
    · split <;> exact ⟨rfl, rfl, rfl, rfl, rfl⟩
    · split
      · exact (ite_eq_or_eq _ _ _).symm
      · exact Or.inl rfl
  | rescan_out socket =>
    cases hs
    refine hiff trivial (hplain ?_ rfl rfl le_rfl ?_) <;> simp only [epoll.rescan_out]
    · split <;> exact ⟨rfl, rfl, rfl, rfl, rfl⟩
    · split
      · exact (ite_eq_or_eq _ _ _).symm
      · exact Or.inl rfl
  | cancel_rescan_in socket =>
    cases hs
    refine hiff trivial (hplain ?_ rfl rfl le_rfl ?_) <;> simp only [epoll.cancel_rescan_in]
    · split <;> exact ⟨rfl, rfl, rfl, rfl, rfl⟩
    · split <;> exact Or.inl rfl
  | cancel_rescan_out socket =>
    cases hs
    refine hiff trivial (hplain ?_ rfl rfl le_rfl ?_) <;> simp only [epoll.cancel_rescan_out]
    · split <;> exact ⟨rfl, rfl, rfl, rfl, rfl⟩
    · split <;> exact Or.inl rfl
  | enforce_in socket =>
    cases hs
    refine hiff trivial (hplain ?_ rfl rfl le_rfl ?_) <;> simp only [epoll.enforce_in]
    · split <;> exact ⟨rfl, rfl, rfl, rfl, rfl⟩
    · split <;> exact Or.inl rfl
  | advance ns =>
    cases hs
    exact hiff trivial (hplain ⟨rfl, rfl, rfl, rfl, rfl⟩ rfl rfl (Nat.le_add_right _ _) (Or.inl rfl))
  | epoll_wait ready =>
    cases hs
    exact hiff trivial (hplain ⟨rfl, rfl, rfl, rfl, rfl⟩ rfl rfl le_rfl (Or.inl rfl))
  | enforced_to_inset =>
    cases hs
    exact hiff trivial (hplain ⟨rfl, rfl, rfl, rfl, rfl⟩ rfl rfl le_rfl (Or.inl rfl))
  | clear_idle_watch check =>
    cases hs
    exact clear_watch h hlaw ⟨rfl, rfl, rfl, rfl, rfl⟩ (p.epoll.clear_idle_watch_rest check).2.2.2
      rfl rfl rfl
  | event ev =>
    cases hs
    obtain ⟨hsame, htimer⟩ := p.epoll.on_event_idle ev
    by_cases hrw : ev.has (EPOLLIN ||| EPOLLOUT) = true
    · rw [if_pos hrw] at hsame
      have hcond : Watchable p (.event ev) ↔
          ¬ (ev.fd ∈ p.epoll.idle_watched_pre ∧ ev.fd ∈ p.epoll.idle_watched) :=
        ⟨fun hone => hone hrw, fun hone _ => hone⟩
      rw [hcond]
      exact clear_watch h hlaw hsame htimer rfl (if_pos hrw) rfl
    · rw [if_neg hrw] at hsame
      obtain ⟨hgen, hlaw'⟩ := hplain hsame (if_neg hrw) rfl le_rfl (Or.inl htimer)
      exact ⟨hgen, iff_of_true hlaw' fun hyes => absurd hyes hrw⟩
  | set_idle_watch check =>
    cases hs
    exact hiff trivial (set_watch h hlaw rfl rfl rfl rfl)

/-- Only idle sockets are reported, and a cleared watch is gone, in each run that clears no watch
of a socket in both sets and reports no socket that an error came for or that was put under watch
again too late, and in no other run. -/
theorem idle_sockets_were_idle (now : Nat) (auto_epollout_remove : Bool) (idle_timeout_ms : Int)
    (ops : List operation) :
    Always step Idle (.start now auto_epollout_remove idle_timeout_ms) ops ↔
      Meets step Watchable (.start now auto_epollout_remove idle_timeout_ms) ops := by
  refine always_iff_meets (P := fun p => Generations p ∧ Idle p) (fun p h => h.2) ?_ ?_ ?_ ops
  · intro p a p' h hc hs
    obtain ⟨hgen, hiff⟩ := step_idle h.1 h.2 hs
    exact ⟨hgen, hiff.mpr hc⟩
  · intro p a p' h hc hs hlaw
    exact hc ((step_idle h.1 h.2 hs).2.mp hlaw)
  · refine ⟨⟨Nat.zero_le _, ?_, fun _ => rfl, fun hr => by cases hr⟩, ?_, ?_⟩
    · intro s since hsince
      cases hsince
    · exact fun r hr => absurd hr List.not_mem_nil
    · exact fun s _ => ⟨List.not_mem_nil, List.not_mem_nil⟩

/-- Socket 5 is put under watch again while it is in the older set. Data on it clears the new watch
only, and the old one is left. -/
theorem an_old_watch_is_left :
    ¬ ∀ (now : Nat) (auto_epollout_remove : Bool) (idle_timeout_ms : Int) (ops : List operation),
      Always step Idle (.start now auto_epollout_remove idle_timeout_ms) ops := by
  intro hall
  have hlaw := always_exec (hall 0 true 1000
    [.advance (2000 * ms), .set_idle_watch 5, .pre_wait, .set_idle_watch 5,
      .event { events := EPOLLIN, fd := 5 }]) rfl
  exact (hlaw.cleared 5 (by decide)).2 (by decide)

/-! ## Events that leave a watch -/

/-- No event came for a socket under watch since it was put there. -/
def Undisturbed (p : Poller) : Prop :=
  ∀ s, p.watched_at s ≠ none → p.disturbed s = false

/-- An event for a socket under watch says that it can be read or written. An error or a hang-up alone
may not come. -/
def Answered (p : Poller) : operation → Prop
  | .event ev => p.watched_at ev.fd ≠ none → ev.has (EPOLLIN ||| EPOLLOUT)
  | _ => True

theorem undisturbed_step {p p' : Poller} {a : operation} (h : Undisturbed p) (ha : Answered p a)
    (hs : step p a = some p') : Undisturbed p' := by
  cases a with
  | event ev =>
    cases hs
    intro s hwatched
    simp only at hwatched ⊢
    by_cases hrw : ev.has (EPOLLIN ||| EPOLLOUT) = true
    · rw [if_pos hrw] at hwatched
      have hne : s ≠ ev.fd := by
        rintro rfl
        exact hwatched (Function.update_self ..)
      rw [Function.update_of_ne hne] at hwatched ⊢
      exact h s hwatched
    · rw [if_neg hrw] at hwatched
      have hne : s ≠ ev.fd := by
        rintro rfl
        exact hrw (ha hwatched)
      rw [Function.update_of_ne hne]
      exact h s hwatched
  | set_idle_watch check =>
    cases hs
    intro s hwatched
    simp only at hwatched ⊢
    by_cases hsc : s = check
    · rw [hsc, Function.update_self]
    · rw [Function.update_of_ne hsc] at hwatched ⊢
      exact h s hwatched
  | clear_idle_watch check =>
    cases hs
    intro s hwatched
    simp only at hwatched ⊢
    by_cases hsc : s = check
    · rw [hsc, Function.update_self] at hwatched
      exact absurd rfl hwatched
    · rw [Function.update_of_ne hsc] at hwatched
      exact h s hwatched
  | _ =>
    cases hs
    exact h

theorem disturbed_step {p p' : Poller} {a : operation} (ha : ¬ Answered p a)
    (hs : step p a = some p') : ¬ Undisturbed p' := by
  cases a with
  | event ev =>
    obtain ⟨hwatched, hno⟩ := Classical.not_imp.mp ha
    cases hs
    intro h
    have hquiet := h ev.fd (by simpa only [if_neg hno] using hwatched)
    simp only [Function.update_self] at hquiet
    cases hquiet
  | _ => exact absurd trivial ha

/-- A report is disturbed by nothing but an error or a hang-up alone: a read or write event ends the
watch. -/
theorem undisturbed_iff (now : Nat) (auto_epollout_remove : Bool) (idle_timeout_ms : Int)
    (ops : List operation) :
    Always step Undisturbed (.start now auto_epollout_remove idle_timeout_ms) ops ↔
      Meets step Answered (.start now auto_epollout_remove idle_timeout_ms) ops :=
  always_iff_meets (P := Undisturbed) (fun _ h => h) (fun _ _ _ => undisturbed_step)
    (fun _ _ _ _ => disturbed_step) (fun _ hwatched => absurd rfl hwatched) ops

end socle.poll
