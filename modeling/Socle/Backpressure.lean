-- The law of back-pressure (baseproxy.cpp). The flags, the pauses and the
-- monitors of a proxy fit together in each run in which no write meets the
-- bottleneck of another socket.
import Socle.Bottleneck
import Socle.EpollRescans

namespace socle.bottleneck

open lib.run poll

/-! ## The law -/

/-- The flag of a side is set while one of its sockets has bytes left, and only then. As long as it
is set, the sockets of the other side are paused for reading, and no step undoes it. A socket with
bytes left has its write monitor on. -/
structure Backpressure (v : sockets) (c : Proxy) : Prop where
  flagged : ∀ h, c.proxy.neck h = true ↔
    ∃ s ∈ (v.of h).connected, 0 < (c.proxy.cx s).left_over
  paused : ∀ h, ∀ s ∈ (v.of h.other).changed,
    (c.proxy.cx s).read_waiting_for_peercom_ = c.proxy.neck h
  monitored : ∀ h, ∀ s ∈ (v.of h).connected, 0 < (c.proxy.cx s).left_over →
    write_monitored c.proxy.poller s = true
  kept : ∀ h, c.before.neck h = true → c.proxy.neck h = true → ∀ s ∈ (v.of h.other).changed,
    (c.before.cx s).read_waiting_for_peercom_ = true →
      (c.proxy.cx s).read_waiting_for_peercom_ = true

/-- The write leaves bytes in a buffer of this size. -/
def write_io.leaves (io : write_io) (size : Nat) : Bool :=
  0 < size && !(io.writable && size ≤ io.sent)

/-- The bytes that `to_write` gets for `s`. -/
def read_io.bytes_for (io : read_io) (s : Int) : Nat :=
  ((io.bytes.filter fun b => b.1 = s).map Prod.snd).sum

/-- When it is asked for, a pause of `s` stays, and so does the monitor of a peer with bytes left,
but for the sockets in `off`. -/
def Patient (off : List Int) (m : moment) (s : Int) (p : baseProxy) : Prop :=
  (p.cx s).read_waiting_for_peercom_ = true → ∀ peercom ∈ (p.cx s).peer,
    m.com_status peercom = false ∧
      ((p.cx s).com_not_ready_counter + 1 > com_not_ready_slowdown → peercom ∉ off →
        (p.cx peercom).left_over = 0)

/-- No write leaves bytes while the flag of the other side is set. A write that empties a buffer
while the flag of its side is set is the last that was needed, and the flag of the other side is not
set. What else is asked of a socket with bytes left does not reach its monitor. -/
def Separate (v : sockets) (c : Proxy) : operation → Prop
  | .pre_wait _ => True
  | .read _ s m io =>
    Patient [] m s c.proxy ∧
      ((c.proxy.cx s).peer.isSome → io.read.peer_full = true → (c.proxy.cx s).left_over = 0) ∧
      ∀ w ∈ io.forced_write_on_read, (c.proxy.cx s).left_over = 0 ∧
        (c.proxy.cx s).writebuf + io.read.bytes_for s ≤ w.sent
  | .write d s m io =>
    (io.write.leaves (c.proxy.cx s).writebuf = true → c.proxy.neck d.hand.other = false) ∧
      (0 < (c.proxy.cx s).writebuf → io.write.leaves (c.proxy.cx s).writebuf = false →
        c.proxy.neck d.hand = true → c.proxy.neck d.hand.other = false ∧
          ∀ t ∈ (v.of d.hand).connected, t ≠ s → (c.proxy.cx t).left_over = 0) ∧
      (io.forced_read_on_write.isSome → Patient [s] m s c.proxy)

instance (off : List Int) (m : moment) (s : Int) (p : baseProxy) : Decidable (Patient off m s p) :=
  inferInstanceAs (Decidable (_ → ∀ peercom ∈ (p.cx s).peer, _))

instance (v : sockets) (c : Proxy) : (o : operation) → Decidable (Separate v c o)
  | .pre_wait _ => isTrue trivial
  | .read _ s m _ => inferInstanceAs (Decidable (Patient [] m s c.proxy ∧ _ ∧ ∀ w ∈ _, _))
  | .write d s m _ => inferInstanceAs (Decidable (_ ∧ (_ → _ → _ → _ ∧
      ∀ t ∈ (v.of d.hand).connected, _) ∧ (_ → Patient [s] m s c.proxy)))

/-- The handler asks for a write on a read, or for a read on a write. -/
def operation.forced : operation → Bool
  | .pre_wait _ => false
  | .read _ _ _ io => io.forced_write_on_read.isSome
  | .write _ _ _ io => io.forced_read_on_write.isSome

/-- Left and right sockets that are read and written, without peers, and nothing else. -/
structure Plain (v : sockets) (peer : Int → Option Int) (ops : List operation) : Prop where
  pc_cx : ∀ h, (v.of h).pc_cx = []
  peer : peer = fun _ => none
  forced : ∀ o ∈ ops, o.forced = false

/-! ## Monitors -/

section
variable (e : epoll) (s t : Int)

theorem modify_lookup (mask : UInt32) :
    (e.modify s mask).monitored t = if t = s then some mask else e.monitored t := by
  unfold epoll.modify
  split
  · exact Function.update_apply ..
  next hnone =>
    unfold epoll.add
    rw [hnone]
    exact Function.update_apply ..

theorem add_lookup (mask : UInt32) :
    (e.add s mask).monitored t =
      if t = s then some ((e.monitored s).getD mask) else e.monitored t := by
  unfold epoll.add
  split
  next mask' hsome =>
    split
    next hts =>
      rw [hts, hsome]
      rfl
    · rfl
  next hnone =>
    rw [hnone]
    exact Function.update_apply ..

theorem set_write_monitor_lookup (hs : 0 < s) : (set_write_monitor s e).monitored t =
    if t = s then some (EPOLLIN ||| EPOLLOUT) else e.monitored t := by
  rw [set_write_monitor, if_pos hs]
  exact modify_lookup ..

theorem change_monitor_lookup (mask : UInt32) (hs : 0 < s) :
    (change_monitor s mask e).monitored t = if t = s then some mask else e.monitored t := by
  rw [change_monitor, if_pos hs]
  exact modify_lookup ..

theorem unset_monitor_lookup (hs : 0 < s) :
    (unset_monitor s e).monitored t = if t = s then none else e.monitored t := by
  unfold unset_monitor epoll.cancel_rescan_in epoll.cancel_rescan_out
  rw [if_pos hs, if_pos hs, if_pos hs]
  exact Function.update_apply ..

variable {s t}

theorem rescan_read_of_ne (now : Nat) (h : t ≠ s) :
    (rescan_read now s e).monitored t = e.monitored t := by
  unfold rescan_read epoll.rescan_in
  split
  · exact Function.update_of_ne h ..
  · rfl

theorem rescan_write_of_ne (now : Nat) (h : t ≠ s) :
    (rescan_write now s e).monitored t = e.monitored t := by
  unfold rescan_write epoll.rescan_out
  split
  · exact Function.update_of_ne h ..
  · rfl

theorem set_monitor_keeps (h : write_monitored e t = true) :
    write_monitored (set_monitor s e) t = true := by
  unfold set_monitor
  split
  · unfold write_monitored at h ⊢
    rw [add_lookup]
    by_cases hts : t = s
    · subst hts
      cases hsome : e.monitored t with
      | some mask => simpa [hsome] using h
      | none => simp [hsome] at h
    · rwa [if_neg hts]
  · exact h

theorem set_write_monitor_keeps (h : write_monitored e t = true) :
    write_monitored (set_write_monitor s e) t = true := by
  by_cases hs : 0 < s
  · unfold write_monitored at h ⊢
    rw [set_write_monitor_lookup e s t hs]
    by_cases hts : t = s
    · rw [if_pos hts]
      decide
    · rwa [if_neg hts]
  · rwa [set_write_monitor, if_neg hs]

theorem write_monitored_congr {e f : epoll} (h : f.monitored t = e.monitored t) :
    write_monitored f t = write_monitored e t := by
  rw [write_monitored, write_monitored, h]

end

/-! ## What a call leaves alone -/

namespace baseProxy

variable {p q : baseProxy} {s t : Int} {off : List Int}

@[simp] theorem modify_cx (f : HostCX → HostCX) :
    (p.modify s f).cx t = if t = s then f (p.cx s) else p.cx t := Function.update_apply ..

@[simp] theorem modify_poller (f : HostCX → HostCX) : (p.modify s f).poller = p.poller := rfl

@[simp] theorem modify_neck (f : HostCX → HostCX) : (p.modify s f).neck = p.neck := rfl

@[simp] theorem poll_cx (f : epoll → epoll) : (p.poll f).cx = p.cx := rfl

@[simp] theorem poll_poller (f : epoll → epoll) : (p.poll f).poller = f p.poller := rfl

@[simp] theorem poll_neck (f : epoll → epoll) : (p.poll f).neck = p.neck := rfl

@[simp] theorem write_bottleneck_cx (h : hand) (b : Bool) :
    (p.write_bottleneck h b).cx = p.cx := rfl

@[simp] theorem write_bottleneck_poller (h : hand) (b : Bool) :
    (p.write_bottleneck h b).poller = p.poller := rfl

@[simp] theorem write_bottleneck_neck (h h' : hand) (b : Bool) :
    (p.write_bottleneck h b).neck h' = if h' = h then b else p.neck h' := Function.update_apply ..

/-- Flags, pauses and the bytes that are left stay as they are, and so do the write monitors that
are needed, but for the sockets in `off`. -/
structure Keeps (off : List Int) (p q : baseProxy) : Prop where
  neck : q.neck = p.neck
  reading : ∀ t, (q.cx t).read_waiting_for_peercom_ = (p.cx t).read_waiting_for_peercom_
  writing : ∀ t, (q.cx t).write_waiting_for_peercom_ = (p.cx t).write_waiting_for_peercom_
  peer : ∀ t, (q.cx t).peer = (p.cx t).peer
  left_over : ∀ t, (q.cx t).left_over = (p.cx t).left_over
  writebuf : ∀ t, (p.cx t).writebuf ≤ (q.cx t).writebuf
  monitored : ∀ t, t ∉ off → 0 < (p.cx t).left_over → write_monitored p.poller t = true →
    write_monitored q.poller t = true

theorem Keeps.refl (off : List Int) (p : baseProxy) : Keeps off p p :=
  ⟨rfl, fun _ => rfl, fun _ => rfl, fun _ => rfl, fun _ => rfl, fun _ => Nat.le_refl _,
    fun _ _ _ h => h⟩

theorem Keeps.trans {r : baseProxy} (h : Keeps off p q) (h' : Keeps off q r) : Keeps off p r where
  neck := h'.neck.trans h.neck
  reading t := (h'.reading t).trans (h.reading t)
  writing t := (h'.writing t).trans (h.writing t)
  peer t := (h'.peer t).trans (h.peer t)
  left_over t := (h'.left_over t).trans (h.left_over t)
  writebuf t := (h.writebuf t).trans (h'.writebuf t)
  monitored t ht hleft hmon :=
    h'.monitored t ht (by rwa [h.left_over t]) (h.monitored t ht hleft hmon)

theorem keeps_poll {f : epoll → epoll} (h : ∀ t, t ∉ off → 0 < (p.cx t).left_over →
    write_monitored p.poller t = true → write_monitored (f p.poller) t = true) :
    Keeps off p (p.poll f) :=
  ⟨rfl, fun _ => rfl, fun _ => rfl, fun _ => rfl, fun _ => rfl, fun _ => Nat.le_refl _, h⟩

/-- A change of `s` that is no pause and no attempt to write. -/
theorem keeps_modify {f : HostCX → HostCX}
    (hread : (f (p.cx s)).read_waiting_for_peercom_ = (p.cx s).read_waiting_for_peercom_)
    (hwrite : (f (p.cx s)).write_waiting_for_peercom_ = (p.cx s).write_waiting_for_peercom_)
    (hpeer : (f (p.cx s)).peer = (p.cx s).peer)
    (hleft : (f (p.cx s)).left_over = (p.cx s).left_over)
    (hbuf : (p.cx s).writebuf ≤ (f (p.cx s)).writebuf) : Keeps off p (p.modify s f) := by
  have hcx : ∀ t, (p.modify s f).cx t = p.cx t ∨ t = s ∧ (p.modify s f).cx t = f (p.cx s) := by
    intro t
    rw [modify_cx]
    split
    next hts => exact Or.inr ⟨hts, rfl⟩
    · exact Or.inl rfl
  refine ⟨rfl, fun t => ?_, fun t => ?_, fun t => ?_, fun t => ?_, fun t => ?_,
    fun _ _ _ hmon => hmon⟩ <;> rcases hcx t with heq | ⟨rfl, heq⟩ <;> rw [heq]
  · exact hread
  · exact hwrite
  · exact hpeer
  · exact hleft
  · exact hbuf

/-! ## Reading -/

theorem to_write_keeps (b : Int × Nat) : Keeps off p (p.to_write b) :=
  (keeps_modify rfl rfl rfl rfl (Nat.le_add_right ..)).trans
    (keeps_poll fun _ _ _ hmon => set_write_monitor_keeps _ hmon)

theorem foldl_to_write_keeps (bs : List (Int × Nat)) : Keeps off p (bs.foldl to_write p) := by
  induction bs generalizing p with
  | nil => exact .refl off p
  | cons b rest ih => exact (to_write_keeps b).trans ih

theorem foldl_to_write_writebuf (bs : List (Int × Nat)) :
    ((bs.foldl to_write p).cx s).writebuf =
      (p.cx s).writebuf + ((bs.filter fun b => b.1 = s).map Prod.snd).sum := by
  induction bs generalizing p with
  | nil => rfl
  | cons b rest ih =>
    rw [List.foldl_cons, ih]
    unfold to_write
    rw [poll_cx, modify_cx]
    by_cases hb : b.1 = s
    · simp only [hb, if_true, List.filter_cons, decide_true, List.map_cons, List.sum_cons]
      omega
    · simp [hb, Ne.symm hb]

/-- Under `Patient`, the answer is the pause, and the question changes nothing that counts. -/
theorem read_waiting_patient {m : moment} (h : Patient off m s p) :
    ∃ q, p.read_waiting_for_peercom m s = ((p.cx s).read_waiting_for_peercom_, q) ∧
      ((p.cx s).read_waiting_for_peercom_ = false → q = p) ∧
      Keeps off p q ∧ (q.cx s).writebuf = (p.cx s).writebuf := by
  unfold read_waiting_for_peercom
  cases hwait : (p.cx s).read_waiting_for_peercom_ with
  | false => exact ⟨p, rfl, fun _ => rfl, .refl off p, rfl⟩
  | true =>
    cases hpeer : (p.cx s).peer with
    | none => exact ⟨p, rfl, fun _ => rfl, .refl off p, rfl⟩
    | some peercom =>
      obtain ⟨hready, hmon⟩ := h hwait peercom hpeer
      simp only [hready, Bool.false_eq_true, if_false]
      have hcount : Keeps off p (p.modify s fun cx =>
          { cx with com_not_ready_counter := (p.cx s).com_not_ready_counter + 1 }) :=
        keeps_modify rfl rfl rfl rfl (Nat.le_refl _)
      refine ⟨_, rfl, fun hc => absurd hc (by decide), ?_, by simp⟩
      refine hcount.trans (keeps_poll fun t ht hleft hon => ?_)
      rw [hcount.left_over t] at hleft
      split
      next hslow =>
        have hne : t ≠ peercom := by
          rintro rfl
          exact hleft.ne' (hmon hslow ht)
        rwa [write_monitored_congr (rescan_read_of_ne _ m.now hne)]
      · exact set_monitor_keeps _ hon

/-- A read that is put off takes the monitor of `s`. -/
theorem handle_cx_read_keeps {m : moment} (io : read_io) (forced : Bool) (h : Patient off m s p)
    (hfull : (p.cx s).peer.isSome → io.peer_full = true → s ∉ off → (p.cx s).left_over = 0) :
    Keeps off p (p.handle_cx_read m s io forced) ∧
      ((p.handle_cx_read m s io forced).cx s).writebuf ≤ (p.cx s).writebuf + io.bytes_for s := by
  obtain ⟨q, hask, hsame, hkeeps, hbuf⟩ := read_waiting_patient h
  unfold handle_cx_read read
  split
  · rw [hask]
    cases hwait : (p.cx s).read_waiting_for_peercom_ with
    | true => exact ⟨hkeeps, Nat.le_add_right_of_le hbuf.le⟩
    | false =>
      cases hsame hwait
      simp only [Bool.false_eq_true, if_false]
      by_cases hput : ((p.cx s).peer.isSome && io.peer_full) = true
      · rw [if_pos hput]
        simp only [Bool.and_eq_true] at hput
        refine ⟨keeps_poll fun t ht hleft hon => ?_, Nat.le_add_right ..⟩
        have hne : t ≠ s := by
          rintro rfl
          exact hleft.ne' (hfull hput.1 hput.2 ht)
        rwa [write_monitored_congr (rescan_read_of_ne _ m.now hne)]
      · rw [if_neg hput]
        split
        · exact ⟨foldl_to_write_keeps io.bytes, (foldl_to_write_writebuf io.bytes).le⟩
        · exact ⟨.refl off p, Nat.le_add_right ..⟩
  · exact ⟨.refl off p, Nat.le_add_right ..⟩

/-! ## Writing -/

theorem write_waiting_false {m : moment} (h : (p.cx s).write_waiting_for_peercom_ = false) :
    p.write_waiting_for_peercom m s = (false, p) := by
  unfold write_waiting_for_peercom
  rw [h]

/-- What `write` does to `s`, which does not wait. Of other sockets nothing changes. -/
theorem write_update (m : moment) (io : write_io)
    (h : (p.cx s).write_waiting_for_peercom_ = false) :
    ∃ flag poller, p.write m s io =
        { p with
          cx := Function.update p.cx s { p.cx s with
            writebuf := (p.cx s).writebuf - min io.sent (p.cx s).writebuf
            rescan_out_flag_ := flag }
          poller } ∧
      ∀ t, t ≠ s → poller.monitored t = p.poller.monitored t := by
  have hsame : ∀ size, (p.cx s).writebuf = size → Function.update p.cx s { p.cx s with
      writebuf := size, rescan_out_flag_ := (p.cx s).rescan_out_flag_ } = p.cx := by
    rintro size rfl
    exact Function.update_eq_self s p.cx
  unfold write
  rw [write_waiting_false h]
  simp only [Bool.false_eq_true, if_false]
  split
  next hl =>
    split
    next hpart =>
      refine ⟨true, set_write_monitor s p.poller, by simp [modify, poll], fun t ht => ?_⟩
      unfold set_write_monitor
      split
      · rw [modify_lookup, if_neg ht]
      · rfl
    next hall =>
      split
      · refine ⟨false, change_monitor s EPOLLIN p.poller, by simp [modify, poll], fun t ht => ?_⟩
        unfold change_monitor
        split
        · rw [modify_lookup, if_neg ht]
        · rfl
      · exact ⟨(p.cx s).rescan_out_flag_, p.poller, rfl, fun _ _ => rfl⟩
  next hl =>
    have hnone : min io.sent (p.cx s).writebuf = 0 := by omega
    rw [hnone, Nat.sub_zero]
    split
    · exact ⟨true, rescan_write m.now s p.poller, rfl, fun t ht => rescan_write_of_ne _ m.now ht⟩
    · refine ⟨(p.cx s).rescan_out_flag_, p.poller, ?_, fun _ _ => rfl⟩
      rw [hsame _ rfl]

/-- The buffer of `s` after an attempt to write. -/
def attempt (s : Int) (rest : Nat) (p : baseProxy) : baseProxy :=
  p.modify s fun cx => { cx with writebuf := rest, left_over := rest }

theorem modify_self {f : HostCX → HostCX} (h : f (p.cx s) = p.cx s) : p.modify s f = p := by
  unfold modify
  rw [h, Function.update_eq_self]

theorem attempt_nothing (hbuf : (p.cx s).writebuf = 0) (hleft : (p.cx s).left_over = 0) :
    p.attempt s 0 = p := by
  refine modify_self ?_
  generalize p.cx s = cx at hbuf hleft
  cases cx
  cases hbuf
  cases hleft
  rfl

/-- How much of the buffer is there after `handle_cx_write`. -/
def rest (io : write_io) (forced : Bool) (size : Nat) : Nat :=
  if io.writable || forced then size - min io.sent size else size

theorem rest_le (io : write_io) (forced : Bool) (size : Nat) : rest io forced size ≤ size := by
  unfold rest
  split
  · exact Nat.sub_le ..
  · exact Nat.le_refl size

theorem rest_pos {io : write_io} {size : Nat} :
    0 < rest io false size ↔ io.leaves size = true := by
  unfold rest write_io.leaves
  cases io.writable with
  | true =>
    simp only [Bool.or_false, if_true, Bool.true_and, Bool.and_eq_true, decide_eq_true_eq,
      Bool.not_eq_true', decide_eq_false_iff_not]
    omega
  | false => simp

theorem handle_cx_write_keeps (m : moment) (io : write_io) (forced : Bool)
    (h : (p.cx s).write_waiting_for_peercom_ = false) :
    Keeps [s] (p.attempt s (rest io forced (p.cx s).writebuf)) (p.handle_cx_write m s io forced) ∧
      ∃ flag, (p.handle_cx_write m s io forced).cx s = { p.cx s with
        writebuf := rest io forced (p.cx s).writebuf
        left_over := rest io forced (p.cx s).writebuf
        rescan_out_flag_ := flag } := by
  unfold handle_cx_write rest
  split
  · obtain ⟨flag, poller, hwrite, hmon⟩ := write_update m io h
    have hflag : Keeps [s] (p.attempt s ((p.cx s).writebuf - min io.sent (p.cx s).writebuf))
        ((p.attempt s ((p.cx s).writebuf - min io.sent (p.cx s).writebuf)).modify s fun cx =>
          { cx with rescan_out_flag_ := flag }) := keeps_modify rfl rfl rfl rfl (Nat.le_refl _)
    have hlast := hflag.trans (keeps_poll (f := fun _ => poller) fun t ht _ hon => by
      rwa [write_monitored_congr (hmon t (mt List.mem_singleton.mpr ht))])
    rw [hwrite]
    exact ⟨by simpa [attempt, modify, poll] using hlast, flag, by simp⟩
  · exact ⟨.refl _ _, (p.cx s).rescan_out_flag_, by simp⟩

/-! ## Reports -/

/-- A report changes the monitor of its socket, when it may be written and not read. -/
theorem on_event_lookup {ev : epoll_event} (e : epoll) (h : ev.has EPOLLIN = true ∨ t ≠ ev.fd) :
    (e.on_event ev).monitored t = e.monitored t := by
  have hclear : ∀ e : epoll, (e.clear_idle_watch ev.fd).monitored = e.monitored := by
    intro e
    unfold epoll.clear_idle_watch
    split <;> rfl
  unfold epoll.on_event
  split
  · rw [hclear]
  next hin =>
    have hne : t ≠ ev.fd := h.resolve_left hin
    split
    · dsimp only
      split
      · rw [modify_lookup, if_neg hne, hclear]
      · rw [hclear]
    · rfl

theorem report_keeps (bits : UInt32) (event : Bool)
    (h : epoll_event.has { events := bits, fd := s } EPOLLIN = true ∨ s ∈ off) :
    Keeps off p (p.report bits event s) := by
  refine keeps_poll fun t ht _ hon => ?_
  split
  · have hother : epoll_event.has { events := bits, fd := s } EPOLLIN = true ∨ t ≠ s :=
      h.imp_right fun hs hts => ht (by rwa [hts])
    rwa [write_monitored_congr (on_event_lookup _ hother)]
  · exact hon

theorem pre_wait_keeps (now : Nat) : Keeps [] p (p.poll (·.pre_wait now)) := by
  refine keeps_poll fun t _ _ hon => ?_
  rcases epoll.pre_wait_cases now p.poller with ⟨-, hwait⟩ | ⟨-, hwait⟩ <;> simp only [hwait]
  · exact hon
  · rw [write_monitored, (epoll.idles_same _).2.2, epoll.rescans_lookup]
    cases hmask : p.poller.monitored t with
    | some mask => simpa [epoll.clear, hmask, write_monitored] using hon
    | none => simp [hmask, write_monitored] at hon

/-! ## A whole side -/

/-- The mask that `change_monitor_for_cx_vec` asks for. -/
def mask (ifread ifwrite : Bool) : Option UInt32 :=
  if ifread && ifwrite then some (EPOLLIN ||| EPOLLOUT)
  else if ifread then some EPOLLIN
  else if ifwrite then some EPOLLOUT
  else none

def pause (pause_read pause_write : Int) (cx : HostCX) : HostCX :=
  { cx with
    read_waiting_for_peercom_ :=
      if pause_read ≠ 0 then pause_read > 0 else cx.read_waiting_for_peercom_
    write_waiting_for_peercom_ :=
      if pause_write ≠ 0 then pause_write > 0 else cx.write_waiting_for_peercom_ }

/-- What a loop does to the view of a socket, each turn of which puts something into the view of its
own socket. Twice is as good as once. -/
theorem foldl_put {σ β : Type} {turn : σ → Int → σ} (view : σ → Int → β) (put : β → β)
    (hput : ∀ b, put (put b) = put b) (l : List Int)
    (hturn : ∀ p, ∀ s ∈ l, ∀ t, view (turn p s) t = if t = s then put (view p t) else view p t)
    (p : σ) (t : Int) :
    view (l.foldl turn p) t = if t ∈ l then put (view p t) else view p t := by
  induction l generalizing p with
  | nil => rfl
  | cons s rest ih =>
    rw [List.foldl_cons, ih (fun p s hs => hturn p s (List.mem_cons_of_mem _ hs)),
      hturn p s List.mem_cons_self]
    by_cases hts : t = s
    · subst hts
      simp [hput]
    · simp [hts]

variable {ifread ifwrite : Bool} {pause_read pause_write : Int}

theorem change_monitor_for_cx_cx :
    (p.change_monitor_for_cx ifread ifwrite pause_read pause_write s).cx t =
      if t = s then pause pause_read pause_write (p.cx t) else p.cx t := by
  unfold change_monitor_for_cx pause
  by_cases hts : t = s
  · subst hts
    by_cases hr : pause_read = 0 <;> by_cases hw : pause_write = 0 <;> simp [hr, hw]
  · by_cases hr : pause_read = 0 <;> by_cases hw : pause_write = 0 <;> simp [hr, hw, hts]

theorem change_monitor_for_cx_poller :
    (p.change_monitor_for_cx ifread ifwrite pause_read pause_write s).poller =
      (if ifread && ifwrite then change_monitor s (EPOLLIN ||| EPOLLOUT)
        else if ifread then change_monitor s EPOLLIN
        else if ifwrite then change_monitor s EPOLLOUT
        else unset_monitor s) p.poller := by
  unfold change_monitor_for_cx
  by_cases hr : pause_read = 0 <;> by_cases hw : pause_write = 0 <;> simp [hr, hw]

theorem change_monitor_for_cx_lookup (hs : 0 < s) :
    (p.change_monitor_for_cx ifread ifwrite pause_read pause_write s).poller.monitored t =
      if t = s then mask ifread ifwrite else p.poller.monitored t := by
  rw [change_monitor_for_cx_poller]
  cases ifread <;> cases ifwrite
  · exact unset_monitor_lookup _ s t hs
  · exact change_monitor_lookup _ s t _ hs
  · exact change_monitor_lookup _ s t _ hs
  · exact change_monitor_lookup _ s t _ hs

theorem change_side_monitoring_eq (v : vectors) :
    p.change_side_monitoring v ifread ifwrite pause_read pause_write =
      v.changed.foldl (change_monitor_for_cx ifread ifwrite pause_read pause_write) p := by
  rw [vectors.changed, List.foldl_append]
  rfl

theorem change_side_monitoring_cx (v : vectors) :
    (p.change_side_monitoring v ifread ifwrite pause_read pause_write).cx t =
      if t ∈ v.changed then pause pause_read pause_write (p.cx t) else p.cx t := by
  rw [change_side_monitoring_eq]
  refine foldl_put baseProxy.cx (pause pause_read pause_write) (fun cx => ?_) v.changed
    (fun p s _ t => change_monitor_for_cx_cx) p t
  unfold pause
  by_cases hr : pause_read = 0 <;> by_cases hw : pause_write = 0 <;> simp [hr, hw]

theorem change_side_monitoring_left_over (v : vectors) :
    ((p.change_side_monitoring v ifread ifwrite pause_read pause_write).cx t).left_over =
      (p.cx t).left_over := by
  rw [change_side_monitoring_cx]
  split <;> rfl

theorem change_side_monitoring_writebuf (v : vectors) :
    ((p.change_side_monitoring v ifread ifwrite pause_read pause_write).cx t).writebuf =
      (p.cx t).writebuf := by
  rw [change_side_monitoring_cx]
  split <;> rfl

theorem change_side_monitoring_peer (v : vectors) :
    ((p.change_side_monitoring v ifread ifwrite pause_read pause_write).cx t).peer =
      (p.cx t).peer := by
  rw [change_side_monitoring_cx]
  split <;> rfl

theorem change_side_monitoring_reading {v : vectors} (h : pause_read ≠ 0) :
    ((p.change_side_monitoring v ifread ifwrite pause_read pause_write).cx
      t).read_waiting_for_peercom_ =
      if t ∈ v.changed then decide (pause_read > 0) else (p.cx t).read_waiting_for_peercom_ := by
  rw [change_side_monitoring_cx]
  split
  · exact if_pos h
  · rfl

/-- No socket comes to wait for writing. -/
theorem change_side_monitoring_writing {v : vectors} (h : pause_write ≤ 0)
    (hp : (p.cx t).write_waiting_for_peercom_ = false) :
    ((p.change_side_monitoring v ifread ifwrite pause_read pause_write).cx
      t).write_waiting_for_peercom_ = false := by
  rw [change_side_monitoring_cx]
  split
  · by_cases hw : pause_write = 0
    · simp [pause, hw, hp]
    · simp [pause, hw, h]
  · exact hp

theorem change_side_monitoring_lookup {v : vectors} (hv : ∀ s ∈ v.changed, 0 < s) :
    (p.change_side_monitoring v ifread ifwrite pause_read pause_write).poller.monitored t =
      if t ∈ v.changed then mask ifread ifwrite else p.poller.monitored t := by
  rw [change_side_monitoring_eq]
  exact foldl_put (fun p => p.poller.monitored) (fun _ => mask ifread ifwrite)
    (fun _ => rfl) v.changed (fun p s hs t => change_monitor_for_cx_lookup (hv s hs)) p t

theorem change_side_monitoring_neck (v : vectors) :
    (p.change_side_monitoring v ifread ifwrite pause_read pause_write).neck = p.neck := by
  rw [change_side_monitoring_eq]
  induction v.changed generalizing p with
  | nil => rfl
  | cons s rest ih =>
    rw [List.foldl_cons, ih]
    unfold change_monitor_for_cx
    by_cases hr : pause_read = 0 <;> by_cases hw : pause_write = 0 <;> simp [hr, hw]

/-! ## A bottleneck -/

/-- A write to `s` left bytes. -/
def bottleneck_start (v : sockets) (h : hand) (s : Int) (p : baseProxy) : baseProxy :=
  (((p.poll (set_write_monitor s)).write_bottleneck h true).change_side_monitoring
    (v.of h.other) false false 1 0).change_side_monitoring (v.of h) true true (-1) (-1)

/-- A write left nothing, and the flag was set. -/
def bottleneck_stop (v : sockets) (h : hand) (p : baseProxy) : baseProxy :=
  (p.write_bottleneck h false).change_side_monitoring (v.of h.other) true false (-1) 0

/-- What `handle_cx_write_once` does after an attempt on `s` that found `orig_bytes_sz` in the
buffer and left `pending_bytes_sz`. -/
def after_attempt (v : sockets) (h : hand) (s : Int) (orig_bytes_sz pending_bytes_sz : Nat)
    (p : baseProxy) : baseProxy :=
  if orig_bytes_sz > 0 then
    if pending_bytes_sz > 0 then p.bottleneck_start v h s
    else if p.neck h then p.bottleneck_stop v h
    else p
  else p

end baseProxy

/-! ## One step -/

@[simp] theorem hand.other_other (h : hand) : h.other.other = h := by
  cases h <;> rfl

theorem hand.ne_other (h : hand) : h ≠ h.other := by
  cases h <;> decide

theorem hand.eq_or_other (h h' : hand) : h' = h ∨ h' = h.other := by
  cases h <;> cases h' <;> decide

theorem vectors.mem_all_of_connected {v : vectors} {s : Int} (h : s ∈ v.connected) : s ∈ v.all := by
  unfold connected at h
  unfold all
  grind

theorem vectors.mem_all_of_changed {v : vectors} {s : Int} (h : s ∈ v.changed) : s ∈ v.all := by
  unfold changed at h
  unfold all
  grind

theorem sockets.not_mem_other (v : sockets) {h : hand} {s : Int} (hs : s ∈ (v.of h).all) :
    s ∉ (v.of h.other).all := by
  cases h with
  | left => exact v.apart s hs
  | right => exact fun hleft => v.apart s hleft hs

theorem sockets.mem_connected {v : sockets} {d : side} {s : Int} (h : s ∈ v.handled d) :
    s ∈ (v.of d.hand).connected := by
  cases d <;> simp only [handled, side.hand, vectors.connected, List.mem_append] at h ⊢ <;> simp [h]

/-- The law of one state, with what the steps need: what is left is in the buffer, nobody waits for
writing, and the peers stay the same. -/
structure Throttled (v : sockets) (peer : Int → Option Int) (p : baseProxy) : Prop where
  flagged : ∀ h, p.neck h = true ↔ ∃ s ∈ (v.of h).connected, 0 < (p.cx s).left_over
  paused : ∀ h, ∀ s ∈ (v.of h.other).changed, (p.cx s).read_waiting_for_peercom_ = p.neck h
  monitored : ∀ h, ∀ s ∈ (v.of h).connected, 0 < (p.cx s).left_over →
    write_monitored p.poller s = true
  settled : ∀ s, (p.cx s).left_over ≤ (p.cx s).writebuf
  unwaiting : ∀ s, (p.cx s).write_waiting_for_peercom_ = false
  peers : ∀ s, (p.cx s).peer = peer s

namespace Throttled

variable {v : sockets} {peer : Int → Option Int} {p q : baseProxy} {s : Int} {off : List Int}

theorem backpressure {before : baseProxy} (h : Throttled v peer p) :
    Backpressure v { proxy := p, before } where
  flagged := h.flagged
  paused := h.paused
  monitored := h.monitored
  kept hd _ hneck s hs _ := (h.paused hd s hs).trans hneck

theorem keeps (h : Throttled v peer p) (hk : p.Keeps off q)
    (hoff : ∀ t ∈ off, (p.cx t).left_over = 0) : Throttled v peer q where
  flagged hd := by
    rw [hk.neck, h.flagged]
    simp only [hk.left_over]
  paused hd t ht := by rw [hk.reading, hk.neck, h.paused hd t ht]
  monitored hd t ht hleft := by
    rw [hk.left_over] at hleft
    exact hk.monitored t (fun hin => hleft.ne' (hoff t hin)) hleft (h.monitored hd t ht hleft)
  settled t := by
    rw [hk.left_over]
    exact (h.settled t).trans (hk.writebuf t)
  unwaiting t := (hk.writing t).trans (h.unwaiting t)
  peers t := (hk.peer t).trans (h.peers t)

theorem none_left (h : Throttled v peer p) {hd : hand} (hneck : p.neck hd = false) {t : Int}
    (ht : t ∈ (v.of hd).connected) : (p.cx t).left_over = 0 := by
  by_contra hne
  have hflag := (h.flagged hd).mpr ⟨t, ht, Nat.pos_of_ne_zero hne⟩
  rw [hneck] at hflag
  cases hflag

/-- What an attempt on `s` leaves, seen at other sockets and at `s`. -/
theorem left_over_attempt {rest : Nat} (hk : (p.attempt s rest).Keeps off q) (t : Int) :
    (q.cx t).left_over = if t = s then rest else (p.cx t).left_over := by
  rw [hk.left_over, baseProxy.attempt, baseProxy.modify_cx]
  split <;> rfl

theorem reading_attempt {rest : Nat} (hk : (p.attempt s rest).Keeps off q) (t : Int) :
    (q.cx t).read_waiting_for_peercom_ = (p.cx t).read_waiting_for_peercom_ := by
  rw [hk.reading, baseProxy.attempt, baseProxy.modify_cx]
  split
  next hts => rw [hts]
  · rfl

theorem writing_attempt (h : Throttled v peer p) {rest : Nat} (hk : (p.attempt s rest).Keeps off q)
    (t : Int) : (q.cx t).write_waiting_for_peercom_ = false := by
  rw [hk.writing, baseProxy.attempt, baseProxy.modify_cx]
  split
  next hts => exact h.unwaiting s
  · exact h.unwaiting t

theorem peers_attempt (h : Throttled v peer p) {rest : Nat} (hk : (p.attempt s rest).Keeps off q)
    (t : Int) : (q.cx t).peer = peer t := by
  rw [hk.peer, baseProxy.attempt, baseProxy.modify_cx]
  split
  next hts => exact (h.peers s).trans (congrArg peer hts.symm)
  · exact h.peers t

theorem settled_attempt (h : Throttled v peer p) {rest : Nat} (hk : (p.attempt s rest).Keeps off q)
    (t : Int) : (q.cx t).left_over ≤ (q.cx t).writebuf := by
  refine le_trans ?_ (hk.writebuf t)
  rw [hk.left_over, baseProxy.attempt, baseProxy.modify_cx]
  split
  · exact Nat.le_refl rest
  · exact h.settled t

/-- A socket with nothing left writes all that it has. -/
theorem attempt_zero (h : Throttled v peer p) (hleft : (p.cx s).left_over = 0) :
    Throttled v peer (p.attempt s 0) := by
  have hk := baseProxy.Keeps.refl [] (p.attempt s 0)
  have hsame : ∀ t, ((p.attempt s 0).cx t).left_over = (p.cx t).left_over := by
    intro t
    rw [left_over_attempt hk]
    split
    next hts => rw [hts, hleft]
    · rfl
  refine ⟨fun hd => ?_, fun hd t ht => ?_, fun hd t ht hpos => ?_, h.settled_attempt hk,
    h.writing_attempt hk, h.peers_attempt hk⟩
  · simp only [hsame]
    exact h.flagged hd
  · rw [reading_attempt hk]
    exact h.paused hd t ht
  · rw [hsame] at hpos
    exact h.monitored hd t ht hpos

section
variable {hd : hand}

/-- No socket of the other side has bytes left after an attempt on `s`. -/
theorem none_left_other (h : Throttled v peer p) {rest : Nat} (hs : s ∈ (v.of hd).connected)
    (hother : p.neck hd.other = false) (hk : (p.attempt s rest).Keeps off q) {t : Int}
    (ht : t ∈ (v.of hd.other).connected) : (q.cx t).left_over = 0 := by
  have hne : t ≠ s := by
    rintro rfl
    exact v.not_mem_other (vectors.mem_all_of_connected hs) (vectors.mem_all_of_connected ht)
  rw [left_over_attempt hk, if_neg hne]
  exact h.none_left hother ht

/-- A bottleneck of the side of `s` starts or goes on, and the other side has none. -/
theorem bottleneck_start (h : Throttled v peer p) {rest : Nat} (hs : s ∈ (v.of hd).connected)
    (hother : p.neck hd.other = false) (hrest : 0 < rest) (hk : (p.attempt s rest).Keeps [s] q) :
    Throttled v peer (q.bottleneck_start v hd s) := by
  unfold baseProxy.bottleneck_start
  have hpos : ∀ hd', ∀ t ∈ (v.of hd').changed, 0 < t := fun hd' t ht =>
    v.positive hd' t (vectors.mem_all_of_changed ht)
  have hneck : q.neck hd.other = false := by
    rw [hk.neck]
    exact hother
  have hnone : ∀ t ∈ (v.of hd.other).connected, (q.cx t).left_over = 0 := fun t ht =>
    h.none_left_other hs hother hk ht
  refine ⟨fun hd' => ?_, fun hd' t ht => ?_, fun hd' t ht hleft => ?_, fun t => ?_, fun t => ?_,
    fun t => ?_⟩
  · rw [baseProxy.change_side_monitoring_neck, baseProxy.change_side_monitoring_neck]
    simp only [baseProxy.change_side_monitoring_left_over]
    rcases hd.eq_or_other hd' with rfl | rfl
    · refine iff_of_true (Function.update_self ..) ⟨s, hs, ?_⟩
      rw [baseProxy.write_bottleneck_cx, baseProxy.poll_cx, left_over_attempt hk, if_pos rfl]
      exact hrest
    · refine iff_of_false (fun hset => ?_) ?_
      · rw [baseProxy.write_bottleneck_neck, if_neg hd.ne_other.symm, baseProxy.poll_neck,
          hneck] at hset
        cases hset
      · rintro ⟨t, ht, hleft⟩
        exact hleft.ne' (hnone t ht)
  · rw [baseProxy.change_side_monitoring_neck, baseProxy.change_side_monitoring_neck,
      baseProxy.write_bottleneck_neck, baseProxy.change_side_monitoring_reading (by decide),
      baseProxy.change_side_monitoring_reading (by decide)]
    rcases hd.eq_or_other hd' with rfl | rfl
    · have hnot : t ∉ (v.of hd').changed := fun hin =>
        v.not_mem_other (vectors.mem_all_of_changed hin) (vectors.mem_all_of_changed ht)
      rw [if_neg hnot, if_pos ht, if_pos rfl]
      rfl
    · rw [hand.other_other] at ht
      rw [if_pos ht, if_neg hd.ne_other.symm, baseProxy.poll_neck, hneck]
      rfl
  · simp only [baseProxy.change_side_monitoring_left_over, baseProxy.write_bottleneck_cx,
      baseProxy.poll_cx] at hleft
    rcases hd.eq_or_other hd' with rfl | rfl
    · have hnot : t ∉ (v.of hd'.other).changed := fun hin =>
        v.not_mem_other (vectors.mem_all_of_connected ht) (vectors.mem_all_of_changed hin)
      rw [write_monitored, baseProxy.change_side_monitoring_lookup (hpos hd'),
        baseProxy.change_side_monitoring_lookup (hpos hd'.other)]
      by_cases hin : t ∈ (v.of hd').changed
      · rw [if_pos hin]
        decide
      · rw [if_neg hin, if_neg hnot, baseProxy.write_bottleneck_poller, baseProxy.poll_poller,
          set_write_monitor_lookup _ _ _ (v.positive hd' s (vectors.mem_all_of_connected hs))]
        by_cases hts : t = s
        · rw [if_pos hts]
          decide
        · rw [left_over_attempt hk, if_neg hts] at hleft
          rw [if_neg hts]
          refine hk.monitored t (mt List.mem_singleton.mp hts) ?_ (h.monitored hd' t ht hleft)
          rw [baseProxy.attempt, baseProxy.modify_cx, if_neg hts]
          exact hleft
    · exact absurd (hnone t ht) hleft.ne'
  · simp only [baseProxy.change_side_monitoring_left_over,
      baseProxy.change_side_monitoring_writebuf]
    exact h.settled_attempt hk t
  · exact baseProxy.change_side_monitoring_writing (by decide)
      (baseProxy.change_side_monitoring_writing (by decide) (h.writing_attempt hk t))
  · rw [baseProxy.change_side_monitoring_peer, baseProxy.change_side_monitoring_peer]
    exact h.peers_attempt hk t

/-- The last socket of its side with bytes left writes them. The other side has no bottleneck. -/
theorem bottleneck_stop (h : Throttled v peer p) (hs : s ∈ (v.of hd).connected)
    (hother : p.neck hd.other = false)
    (hlast : ∀ t ∈ (v.of hd).connected, t ≠ s → (p.cx t).left_over = 0)
    (hk : (p.attempt s 0).Keeps off q) :
    Throttled v peer (q.bottleneck_stop v hd) := by
  unfold baseProxy.bottleneck_stop
  have hneck : q.neck hd.other = false := by
    rw [hk.neck]
    exact hother
  have hnone : ∀ hd', ∀ t ∈ (v.of hd').connected, (q.cx t).left_over = 0 := by
    intro hd' t ht
    rcases hd.eq_or_other hd' with rfl | rfl
    · rw [left_over_attempt hk]
      split
      · rfl
      next hne => exact hlast t ht hne
    · exact h.none_left_other hs hother hk ht
  refine ⟨fun hd' => ?_, fun hd' t ht => ?_, fun hd' t ht hleft => ?_, fun t => ?_, fun t => ?_,
    fun t => ?_⟩
  · rw [baseProxy.change_side_monitoring_neck, baseProxy.write_bottleneck_neck]
    simp only [baseProxy.change_side_monitoring_left_over, baseProxy.write_bottleneck_cx]
    refine iff_of_false ?_ ?_
    · rcases hd.eq_or_other hd' with rfl | rfl
      · simp
      · simp [hd.ne_other.symm, hneck]
    · rintro ⟨t, ht, hleft⟩
      exact hleft.ne' (hnone hd' t ht)
  · rw [baseProxy.change_side_monitoring_neck, baseProxy.write_bottleneck_neck,
      baseProxy.change_side_monitoring_reading (by decide), baseProxy.write_bottleneck_cx]
    rcases hd.eq_or_other hd' with rfl | rfl
    · rw [if_pos ht, if_pos rfl]
      rfl
    · have hnot : t ∉ (v.of hd.other).changed := fun hin =>
        v.not_mem_other (vectors.mem_all_of_changed hin) (vectors.mem_all_of_changed ht)
      rw [if_neg hnot, if_neg hd.ne_other.symm, reading_attempt hk, hk.neck]
      exact h.paused hd.other t ht
  · rw [baseProxy.change_side_monitoring_left_over] at hleft
    exact absurd (hnone hd' t ht) hleft.ne'
  · simp only [baseProxy.change_side_monitoring_left_over,
      baseProxy.change_side_monitoring_writebuf]
    exact h.settled_attempt hk t
  · exact baseProxy.change_side_monitoring_writing (by decide) (h.writing_attempt hk t)
  · rw [baseProxy.change_side_monitoring_peer]
    exact h.peers_attempt hk t

end

theorem handle_cx_read_once {d : side} {m : moment} {io : reading} (h : Throttled v peer p)
    (hpatient : Patient [] m s p)
    (hfull : (p.cx s).peer.isSome → io.read.peer_full = true → (p.cx s).left_over = 0)
    (hforced : ∀ w ∈ io.forced_write_on_read, (p.cx s).left_over = 0 ∧
      (p.cx s).writebuf + io.read.bytes_for s ≤ w.sent) :
    Throttled v peer (p.handle_cx_read_once d m s io) := by
  obtain ⟨q, hask, hsame, hkeeps, -⟩ := baseProxy.read_waiting_patient hpatient
  unfold baseProxy.handle_cx_read_once
  rw [hask]
  cases hwait : (p.cx s).read_waiting_for_peercom_ with
  | true => exact h.keeps hkeeps fun t ht => absurd ht List.not_mem_nil
  | false =>
    cases hsame hwait
    dsimp only
    split
    · split
      · obtain ⟨hread, hbuf⟩ := baseProxy.handle_cx_read_keeps io.read false
          hpatient fun hpeer hio _ => hfull hpeer hio
        have hthrottled := h.keeps hread fun t ht => absurd ht List.not_mem_nil
        cases hw : io.forced_write_on_read with
        | none => exact hthrottled
        | some w =>
          obtain ⟨hleft, hsent⟩ := hforced w hw
          have hwrite := (baseProxy.handle_cx_write_keeps m w true
            (hthrottled.unwaiting s)).1
          have hall : baseProxy.rest w true
              ((p.handle_cx_read m s io.read false).cx s).writebuf = 0 := by
            simp only [baseProxy.rest, Bool.or_true, if_true]
            omega
          rw [hall] at hwrite
          rw [← hread.left_over] at hleft
          refine (hthrottled.attempt_zero hleft).keeps hwrite (List.forall_mem_singleton.mpr ?_)
          simp [baseProxy.attempt]
      · exact h
    · exact h

theorem after_attempt {hd : hand} {io : write_io} (h : Throttled v peer p)
    (hs : s ∈ (v.of hd).connected)
    (hstart : io.leaves (p.cx s).writebuf = true → p.neck hd.other = false)
    (hstop : 0 < (p.cx s).writebuf → io.leaves (p.cx s).writebuf = false →
      p.neck hd = true → p.neck hd.other = false ∧
        ∀ t ∈ (v.of hd).connected, t ≠ s → (p.cx t).left_over = 0)
    (hk : (p.attempt s (baseProxy.rest io false (p.cx s).writebuf)).Keeps [s] q) :
    Throttled v peer (q.after_attempt v hd s (p.cx s).writebuf
      (baseProxy.rest io false (p.cx s).writebuf)) := by
  have hneck : q.neck hd = p.neck hd := by rw [hk.neck]; rfl
  have hdone : baseProxy.rest io false (p.cx s).writebuf = 0 → (p.cx s).left_over = 0 →
      Throttled v peer q := by
    intro hrest hleft
    rw [hrest] at hk
    refine (h.attempt_zero hleft).keeps hk (List.forall_mem_singleton.mpr ?_)
    simp [baseProxy.attempt]
  unfold baseProxy.after_attempt
  split
  next hsize =>
    split
    next hrest => exact h.bottleneck_start hs (hstart (baseProxy.rest_pos.mp hrest)) hrest hk
    next hrest =>
      have hzero : baseProxy.rest io false (p.cx s).writebuf = 0 := Nat.eq_zero_of_not_pos hrest
      split
      next hflag =>
        have hall : io.leaves (p.cx s).writebuf = false := by
          rw [← Bool.not_eq_true, ← baseProxy.rest_pos]
          exact hrest
        obtain ⟨hother, hlast⟩ := hstop hsize hall (hneck ▸ hflag)
        rw [hzero] at hk
        exact h.bottleneck_stop hs hother hlast hk
      next hflag =>
        rw [hneck, Bool.not_eq_true] at hflag
        exact hdone hzero (h.none_left hflag hs)
  next hsize =>
    have hempty : (p.cx s).writebuf = 0 := Nat.eq_zero_of_not_pos hsize
    refine hdone ?_ (Nat.eq_zero_of_le_zero ((h.settled s).trans hempty.le))
    simp [baseProxy.rest, hempty]

/-- The handler after a report is an attempt on `s`, and what comes after it. -/
theorem handle_cx_write_once_attempt (d : side) (m : moment) (io : writing)
    (h : Throttled v peer p) (hpatient : io.forced_read_on_write.isSome → Patient [s] m s p) :
    ∃ q, (p.attempt s (baseProxy.rest io.write false (p.cx s).writebuf)).Keeps [s] q ∧
      (p.report EPOLLOUT io.in_writeset s).handle_cx_write_once v d m s io =
        q.after_attempt v d.hand s (p.cx s).writebuf
          (baseProxy.rest io.write false (p.cx s).writebuf) := by
  have hreport : ∀ p : baseProxy, p.Keeps [s] (p.report EPOLLOUT io.in_writeset s) := fun _ =>
    baseProxy.report_keeps _ _ (Or.inr (List.mem_singleton_self s))
  have hwriting : ((p.report EPOLLOUT io.in_writeset s).cx s).write_waiting_for_peercom_ = false :=
    h.unwaiting s
  unfold baseProxy.handle_cx_write_once
  rw [baseProxy.write_waiting_false hwriting]
  simp only [Bool.false_eq_true, if_false]
  split
  next hany =>
    obtain ⟨hwrite, flag, hcx⟩ := baseProxy.handle_cx_write_keeps m io.write false hwriting
    have hatt := (hreport (p.attempt s _)).trans hwrite
    have hpending : ((baseProxy.handle_cx_write m s io.write false
        (p.report EPOLLOUT io.in_writeset s)).cx s).writebuf =
        baseProxy.rest io.write false (p.cx s).writebuf := by
      rw [hcx]
      rfl
    rw [hpending]
    cases hforced : io.forced_read_on_write with
    | none => exact ⟨_, hatt, rfl⟩
    | some r =>
      have hpatient' : Patient [s] m s (baseProxy.handle_cx_write m s io.write false
          (p.report EPOLLOUT io.in_writeset s)) := by
        intro hwait peercom hpeer
        rw [hcx] at hwait hpeer ⊢
        obtain ⟨hready, hcount⟩ := hpatient (by rw [hforced]; rfl) hwait peercom hpeer
        refine ⟨hready, fun hslow hns => ?_⟩
        rw [left_over_attempt hatt, if_neg (mt List.mem_singleton.mpr hns)]
        exact hcount hslow hns
      have hread := baseProxy.handle_cx_read_keeps r true hpatient'
        fun _ _ hns => absurd (List.mem_singleton_self s) hns
      exact ⟨_, hatt.trans hread.1, rfl⟩
  next hnone =>
    -- there was nothing to write
    have hzero : (p.cx s).writebuf = 0 := by
      simp only [Bool.or_eq_true, decide_eq_true_eq, not_or, not_not] at hnone
      exact hnone.2
    have hleft : (p.cx s).left_over = 0 := Nat.eq_zero_of_le_zero ((h.settled s).trans hzero.le)
    have hnothing : baseProxy.rest io.write false (p.cx s).writebuf = 0 := by
      simp [baseProxy.rest, hzero]
    refine ⟨p.report EPOLLOUT io.in_writeset s, ?_, ?_⟩
    · rw [hnothing, baseProxy.attempt_nothing hzero hleft]
      exact hreport p
    · rw [hzero]
      rfl

end Throttled

/-! ## What breaks the law -/

section
variable {v : sockets} {q before : baseProxy} {hd : hand} {s t : Int}

/-- A bottleneck that starts while the other side has one un-pauses its own side. -/
theorem pause_is_undone (hs : s ∈ (v.of hd).changed) (hother : q.neck hd.other = true) :
    ¬ Backpressure v { proxy := q.bottleneck_start v hd s, before } := by
  intro hlaw
  have hpaused := hlaw.paused hd.other s (by rwa [hand.other_other])
  unfold baseProxy.bottleneck_start at hpaused
  rw [baseProxy.change_side_monitoring_reading (by decide), if_pos hs,
    baseProxy.change_side_monitoring_neck, baseProxy.change_side_monitoring_neck,
    baseProxy.write_bottleneck_neck, if_neg hd.ne_other.symm, baseProxy.poll_neck,
    hother] at hpaused
  cases hpaused

/-- A bottleneck that stops while another socket of the side has bytes left clears the flag. -/
theorem flag_is_lost (ht : t ∈ (v.of hd).connected) (hleft : 0 < (q.cx t).left_over) :
    ¬ Backpressure v { proxy := q.bottleneck_stop v hd, before } := by
  intro hlaw
  have hflag := (hlaw.flagged hd).mpr ⟨t, ht, by
    rwa [baseProxy.bottleneck_stop, baseProxy.change_side_monitoring_left_over]⟩
  unfold baseProxy.bottleneck_stop at hflag
  rw [baseProxy.change_side_monitoring_neck, baseProxy.write_bottleneck_neck, if_pos rfl] at hflag
  cases hflag

/-- A bottleneck that stops while a socket of the other side has bytes left takes its monitor. -/
theorem monitor_is_lost (ht : t ∈ (v.of hd.other).sockets) (hleft : 0 < (q.cx t).left_over) :
    ¬ Backpressure v { proxy := q.bottleneck_stop v hd, before } := by
  intro hlaw
  have hchanged : t ∈ (v.of hd.other).changed := List.mem_append_left _ ht
  have hmon := hlaw.monitored hd.other t (List.mem_append_left _ ht) (by
    rwa [baseProxy.bottleneck_stop, baseProxy.change_side_monitoring_left_over])
  unfold baseProxy.bottleneck_stop at hmon
  rw [write_monitored, baseProxy.change_side_monitoring_lookup fun s hs =>
    v.positive hd.other s (vectors.mem_all_of_changed hs), if_pos hchanged] at hmon
  exact absurd hmon (by decide)

end

theorem step_throttled {v : sockets} {peer : Int → Option Int} {c c' : Proxy} {a : operation}
    (h : Throttled v peer c.proxy) (hc : Separate v c a) (hs : step v c a = some c') :
    Throttled v peer c'.proxy := by
  cases a with
  | pre_wait now =>
    cases hs
    exact h.keeps (baseProxy.pre_wait_keeps now) fun t ht => absurd ht List.not_mem_nil
  | read d s m io =>
    obtain ⟨hpatient, hfull, hforced⟩ := hc
    simp only [step] at hs
    split at hs
    · cases hs
      have hreport : c.proxy.Keeps [] (c.proxy.report EPOLLIN io.in_readset s) :=
        baseProxy.report_keeps _ _ (Or.inl (decide_eq_true (by decide : EPOLLIN &&& EPOLLIN ≠ 0)))
      exact (h.keeps hreport fun t ht => absurd ht List.not_mem_nil).handle_cx_read_once
        hpatient hfull hforced
    · cases hs
  | write d s m io =>
    obtain ⟨hstart, hstop, hpatient⟩ := hc
    simp only [step] at hs
    split at hs
    next hmem =>
      cases hs
      obtain ⟨q, hk, heq⟩ := h.handle_cx_write_once_attempt d m io hpatient
      rw [heq]
      exact h.after_attempt (sockets.mem_connected hmem) hstart hstop hk
    · cases hs

section
variable {v : sockets} {peer : Int → Option Int} {p before : baseProxy} {d : side} {m : moment}
  {s : Int} {io : writing}

/-- A write that leaves bytes while the flag of the other side is set. -/
theorem leaving_fails (h : Throttled v peer p) (hs : s ∈ (v.of d.hand).sockets)
    (hforced : io.forced_read_on_write = none)
    (hleaves : io.write.leaves (p.cx s).writebuf = true) (hother : p.neck d.hand.other = true) :
    ¬ Backpressure v {
      proxy := (p.report EPOLLOUT io.in_writeset s).handle_cx_write_once v d m s io
      before } := by
  obtain ⟨q, hk, heq⟩ := h.handle_cx_write_once_attempt d m io (s := s) (by simp [hforced])
  have hrest := baseProxy.rest_pos.mpr hleaves
  have hsize : 0 < (p.cx s).writebuf := hrest.trans_le (baseProxy.rest_le ..)
  rw [heq, baseProxy.after_attempt, if_pos hsize, if_pos hrest]
  refine pause_is_undone (List.mem_append_left _ hs) ?_
  rw [hk.neck]
  exact hother

/-- A write that empties a buffer while the flag of its side is set, and either another socket of
the side has bytes left or the flag of the other side is set. -/
theorem emptying_fails (hpc : (v.of d.hand.other).pc_cx = []) (h : Throttled v peer p)
    (hs : s ∈ (v.of d.hand).sockets) (hforced : io.forced_read_on_write = none)
    (hsize : 0 < (p.cx s).writebuf) (hempty : io.write.leaves (p.cx s).writebuf = false)
    (hflag : p.neck d.hand = true)
    (hmore : p.neck d.hand.other = true ∨
      ∃ t ∈ (v.of d.hand).connected, t ≠ s ∧ 0 < (p.cx t).left_over) :
    ¬ Backpressure v {
      proxy := (p.report EPOLLOUT io.in_writeset s).handle_cx_write_once v d m s io
      before } := by
  obtain ⟨q, hk, heq⟩ := h.handle_cx_write_once_attempt d m io (s := s) (by simp [hforced])
  have hrest : ¬ 0 < baseProxy.rest io.write false (p.cx s).writebuf := by
    rw [baseProxy.rest_pos, hempty]
    decide
  have hqflag : q.neck d.hand = true := by
    rw [hk.neck]
    exact hflag
  rw [heq, baseProxy.after_attempt, if_pos hsize, if_neg hrest, if_pos hqflag]
  rcases hmore with hother | ⟨t, ht, hne, hleft⟩
  · obtain ⟨t, ht, hleft⟩ := (h.flagged d.hand.other).mp hother
    have hne : t ≠ s := by
      rintro rfl
      exact v.not_mem_other (vectors.mem_all_of_connected (List.mem_append_left _ hs))
        (vectors.mem_all_of_connected ht)
    rw [vectors.connected, hpc, List.append_nil] at ht
    refine monitor_is_lost ht ?_
    rwa [Throttled.left_over_attempt hk, if_neg hne]
  · refine flag_is_lost ht ?_
    rwa [Throttled.left_over_attempt hk, if_neg hne]

end

/-- Of plain calls the condition is exact. -/
theorem step_fails {v : sockets} {c c' : Proxy} {a : operation} (hpc : ∀ h, (v.of h).pc_cx = [])
    (h : Throttled v (fun _ => none) c.proxy) (ha : a.forced = false) (hc : ¬ Separate v c a)
    (hs : step v c a = some c') : ¬ Backpressure v c' := by
  cases a with
  | pre_wait now => exact absurd trivial hc
  | read d s m io =>
    have hpeer : (c.proxy.cx s).peer = none := h.peers s
    have hforced : io.forced_write_on_read = none := by simpa [operation.forced] using ha
    refine absurd ⟨fun _ peercom hmem => ?_, fun hsome => ?_, fun w hw => ?_⟩ hc
    · rw [hpeer] at hmem
      cases hmem
    · rw [hpeer] at hsome
      cases hsome
    · rw [hforced] at hw
      cases hw
  | write d s m io =>
    have hforced : io.forced_read_on_write = none := by simpa [operation.forced] using ha
    simp only [step] at hs
    split at hs
    next hmem =>
      cases hs
      have hside : s ∈ (v.of d.hand).sockets := by
        have hconnected := sockets.mem_connected hmem
        rwa [vectors.connected, hpc, List.append_nil] at hconnected
      simp only [Separate, not_and_or, Classical.not_imp, Bool.not_eq_false] at hc
      rcases hc with ⟨hleaves, hother⟩ | ⟨hsize, hempty, hflag, hmore⟩ | ⟨hsome, -⟩
      · exact leaving_fails h hside hforced hleaves hother
      · refine emptying_fails (hpc _) h hside hforced hsize hempty hflag (hmore.imp_right ?_)
        intro hothers
        push Not at hothers
        obtain ⟨t, ht, hne, hleft⟩ := hothers
        exact ⟨t, ht, hne, Nat.pos_of_ne_zero hleft⟩
      · rw [hforced] at hsome
        cases hsome
    · cases hs

theorem start_throttled (v : sockets) (writebuf : Int → Nat) (peer : Int → Option Int)
    (poller : epoll) : Throttled v peer (start writebuf peer poller).proxy where
  flagged h := iff_of_false (by simp [start]) (by simp [start])
  paused _ _ _ := rfl
  monitored _ _ _ hleft := absurd hleft (Nat.lt_irrefl 0)
  settled _ := Nat.zero_le _
  unwaiting _ := rfl
  peers _ := rfl

/-! ## Runs -/

/-- The flags, the pauses and the monitors of a proxy fit together in each run in which no write
meets the bottleneck of another socket, and among the plain runs in no other. -/
theorem sides_are_throttled (v : sockets) (writebuf : Int → Nat) (peer : Int → Option Int)
    (poller : epoll) (ops : List operation) :
    (Meets (step v) (Separate v) (start writebuf peer poller) ops →
        Always (step v) (Backpressure v) (start writebuf peer poller) ops) ∧
      (Plain v peer ops → Always (step v) (Backpressure v) (start writebuf peer poller) ops →
        Meets (step v) (Separate v) (start writebuf peer poller) ops) := by
  have hstart := start_throttled v writebuf peer poller
  constructor
  · intro h
    exact (always_of_meets (P := fun c => Throttled v peer c.proxy)
      (fun _ _ _ => step_throttled) hstart h).mono fun _ => Throttled.backpressure
  · rintro ⟨hpc, rfl, hforced⟩ h
    exact meets_of_always (P := fun c => Throttled v (fun _ => none) c.proxy)
      (fun _ _ _ => step_throttled) (fun _ _ _ => step_fails hpc) hstart hforced h

/-- Two sockets on the left, one on the right. -/
def two_and_one : sockets where
  of
    | .left => { sockets := [5, 6] }
    | .right => { sockets := [7] }
  positive := by
    intro h
    cases h <;> decide
  apart := by decide

/-- Bytes from the right for the first socket of the left, which takes them in two writes. -/
def slow_reader : List operation :=
  [.read .r 7 {} { read := { red := 2, bytes := [(5, 2)] } },
    .write .l 5 {} { write := { sent := 1 } },
    .pre_wait 0,
    .write .l 5 {} { write := { sent := 1 } }]

theorem slow_reader_separate :
    Meets (step two_and_one) (Separate two_and_one) (start (fun _ => 0) (fun _ => none) {})
      slow_reader := by
  decide

theorem slow_reader_is_throttled :
    Always (step two_and_one) (Backpressure two_and_one) (start (fun _ => 0) (fun _ => none) {})
      slow_reader :=
  (sides_are_throttled two_and_one (fun _ => 0) (fun _ => none) {} slow_reader).1
    slow_reader_separate

/-- Two sockets of the left have bytes left. The flag goes when the first of them is done. -/
theorem one_of_two_ends_the_bottleneck :
    ¬ ∀ (v : sockets) (writebuf : Int → Nat) (peer : Int → Option Int) (poller : epoll)
      (ops : List operation),
      Always (step v) (Backpressure v) (start writebuf peer poller) ops := by
  intro hall
  have hrun : (exec (step two_and_one) (start (fun _ => 0) (fun _ => none) {})
      [.read .r 7 {} { read := { red := 2, bytes := [(5, 2), (6, 2)] } },
        .write .l 5 {} { write := { sent := 1 } }, .write .l 6 {} { write := { sent := 1 } },
        .write .l 5 {} { write := { sent := 1 } }]).map
      (fun c => (c.proxy.neck .left, (c.proxy.cx 6).left_over)) = some (false, 1) := by decide
  obtain ⟨c, hc, hend⟩ := Option.map_eq_some_iff.mp hrun
  simp only [Prod.mk.injEq] at hend
  have hlaw := always_exec (hall _ _ _ _ _) hc
  have hflag := (hlaw.flagged .left).mpr ⟨6, by decide, by omega⟩
  rw [hend.1] at hflag
  cases hflag

end socle.bottleneck
