-- STARTTLS (apphostcx.cpp: detect on the STARTTLS sensor, in pre_read and pre_write, and the
-- upgrade in post_write). The upgrade comes behind a write which may have left a part of its data in
-- the write buffer.
import Socle.FlowMatch
import Socle.WriteCapture

namespace socle.starttls

open lib.run flows hostcx apphostcx

/-! ## Model -/

/-- What `com()` is. An `SSLCom` is a `TCPCom`, too. -/
inductive com_t
  | TCPCom | SSLCom | other
deriving DecidableEq

/-- An entry of a sensor. -/
structure sig_state where
  hit : Bool := false
  res : flowMatchState := {}
  sig : flowMatch Char

/-- `detect` on a sensor. -/
def detect (flow : Flow Char) : List sig_state → Bool × List sig_state
  | [] => (false, [])
  | e :: rest =>
    let later := detect flow rest
    if e.hit then (later.1, e :: later.2)
    else
      let r := e.res.update e.sig flow
      (r.1 || later.1, { e with hit := r.1, res := r.2 } :: later.2)

/-- An `AppHostCX` with its STARTTLS sensor. No function of the code reads `calls`, which are the bytes
that were still in the write buffer behind the write when `on_starttls` was called, and how many bytes
had been given `before` the last of these calls, and what was written `since` then. -/
structure StartTls where
  capture : Capture
  com : com_t := .TCPCom
  starttls_sensor : List sig_state := []
  upgrade_starttls : Bool := false
  calls : List (List UInt8) := []
  before : Nat := 0
  since : List UInt8 := []

inductive action
  /-- An operation of the connection. `com` is what `on_starttls` leaves, when it is called. -/
  | op (o : operation) (com : com_t)
  /-- The setter of the mode. -/
  | mode (m : apphostcx.mode_t)

namespace StartTls

variable (cfg : config) (max_starttls_exchanges : UInt32) (stream : Nat → UInt8)

/-- The first few exchanges are checked, but only if the com is not SSL already. -/
def look (flow : Flow Char) (s : StartTls) : StartTls :=
  if flow.exchanges < max_starttls_exchanges ∧ s.com = .TCPCom then
    let r := detect flow s.starttls_sensor
    { s with starttls_sensor := r.2, upgrade_starttls := s.upgrade_starttls || r.1 }
  else s

/-- `pre_write` comes to the detection. -/
def inspects_write (a : AppHostCX) : Bool :=
  a.cx.writebuf_ ≠ [] && (a.mode_ = .PRE || a.mode_ = .CONTINUOUS) &&
    (a.inside_detect_on_continue cfg).1

/-- An upgrade is due behind a write. -/
def due (a : AppHostCX) (s : StartTls) : Bool :=
  a.cx.writebuf_ ≠ [] && a.mode_ = .PRE && s.upgrade_starttls

/-- The end of `post_write`, in a write that took `l` bytes. -/
def post_write (a : AppHostCX) (l : Int) (com : com_t) (s : StartTls) : StartTls :=
  if s.due a then
    { s with
      upgrade_starttls := false
      com
      calls := s.calls ++ [a.cx.writebuf_.drop l.toNat]
      before := s.capture.given.length
      since := [] }
  else { s with since := s.since ++ a.cx.writebuf_.take l.toNat }

/-- `pre_write` and its detection: the connection that it leaves, unless the write does not come to
it, or it throws. -/
def pre_write (peercom : Option Bool) (s : StartTls) : Option AppHostCX × StartTls :=
  let app := s.capture.app
  let a := { app with cx := app.cx.write_waiting_for_peercom peercom }
  if a.cx.write_waiting_for_peercom_ then (none, s)
  else
    match a.pre_write cfg with
    | (false, _) => (none, s)
    | (true, a') =>
      (some a', if inspects_write cfg a then s.look max_starttls_exchanges a'.flow else s)

/-- What the hooks of `write` do. -/
def write (peercom : Option Bool) (l : Int) (com : com_t) (s : StartTls) : StartTls :=
  match s.pre_write cfg max_starttls_exchanges peercom with
  | (none, s) => s
  | (some a, s) => if l > 0 then s.post_write a l com else s

/-- What the hooks of `read` do. In `pre_read` the counter of peeked bytes tells that the flow has
got more. -/
def read (i : AppHostCX.reading) (s : StartTls) : StartTls :=
  let app := s.capture.app
  let a := { app with inp := app.inp.read_waiting_for_peercom i.peercom }
  if a.inp.read_waiting_for_peercom_ ∨ i.peer_full then s
  else
    match a.pre_read cfg stream i with
    | (false, _) => s
    | (true, a') =>
      if a.peek_read_counter < a'.peek_read_counter then s.look max_starttls_exchanges a'.flow else s

def hooks (o : operation) (com : com_t) (s : StartTls) : StartTls :=
  match o with
  | .out (.write peercom l) => s.write cfg max_starttls_exchanges peercom l com
  | .read i => s.read cfg max_starttls_exchanges stream i
  | _ => s

def step (s : StartTls) : action → Option StartTls
  | .op o com =>
    (apphostcx.step cfg stream s.capture o).map fun capture =>
      { s.hooks cfg max_starttls_exchanges stream o com with capture }
  | .mode m => some { s with capture := { s.capture with app := { s.capture.app with mode_ := m } } }

end StartTls

/-- A new connection, with the signatures of its sensor. -/
def start (cfg : config) (p : chunks) (l4_proto : Int) (mode : apphostcx.mode_t) (com : com_t)
    (signatures : List (flowMatch Char)) : StartTls where
  capture := apphostcx.start cfg p l4_proto mode
  com
  starttls_sensor := signatures.map fun sig => { sig }

/-! ## What the hooks do -/

section
variable {cfg : config} {max_starttls_exchanges : UInt32} {stream : Nat → UInt8} {s : StartTls}

/-- What `pre_write` and `pre_read` do to the sensor and the flag. -/
def Looked (max_starttls_exchanges : UInt32) (s s' : StartTls) : Prop :=
  s' = s ∨ ∃ flow, s' = s.look max_starttls_exchanges flow

theorem looked_pre_write (peercom : Option Bool) (s : StartTls) :
    Looked max_starttls_exchanges s (s.pre_write cfg max_starttls_exchanges peercom).2 := by
  unfold StartTls.pre_write
  dsimp only
  split
  · exact .inl rfl
  · split
    · exact .inl rfl
    · split
      · exact .inr ⟨_, rfl⟩
      · exact .inl rfl

theorem looked_read (i : AppHostCX.reading) (s : StartTls) :
    Looked max_starttls_exchanges s (s.read cfg max_starttls_exchanges stream i) := by
  unfold StartTls.read
  dsimp only
  split
  · exact .inl rfl
  · split
    · exact .inl rfl
    · split
      · exact .inr ⟨_, rfl⟩
      · exact .inl rfl

end

/-! ## How often it is upgraded -/

/-- The signatures that matched. -/
def hits (sensor : List sig_state) : Nat :=
  sensor.countP sig_state.hit

theorem detect_hits (flow : Flow Char) (sensor : List sig_state) :
    hits sensor + (if (detect flow sensor).1 then 1 else 0) ≤ hits (detect flow sensor).2 := by
  induction sensor with
  | nil => simp [detect]
  | cons e rest ih =>
    unfold hits at ih ⊢
    unfold detect
    cases hhit : e.hit with
    | true =>
      simp only [if_true, List.countP_cons, hhit]
      omega
    | false =>
      simp only [Bool.false_eq_true, if_false, List.countP_cons, hhit, Bool.or_eq_true]
      cases (e.res.update e.sig flow).1 with
      | true =>
        simp only [true_or, if_true]
        have hrest : rest.countP sig_state.hit ≤ (detect flow rest).2.countP sig_state.hit :=
          (Nat.le_add_right _ _).trans ih
        omega
      | false =>
        simp only [Bool.false_eq_true, false_or, if_false]
        omega

theorem detect_sigs (flow : Flow Char) (sensor : List sig_state) :
    (detect flow sensor).2.map sig_state.sig = sensor.map sig_state.sig := by
  induction sensor with
  | nil => rfl
  | cons e rest ih =>
    unfold detect
    split <;> simp [ih]

/-- The invariant: each upgrade, and the one that is due, has a signature that matched. -/
structure Bounded (signatures : List (flowMatch Char)) (s : StartTls) : Prop where
  sigs : s.starttls_sensor.map sig_state.sig = signatures
  upgrades : s.calls.length + (if s.upgrade_starttls then 1 else 0) ≤ hits s.starttls_sensor

section
variable {cfg : config} {max_starttls_exchanges : UInt32} {stream : Nat → UInt8}
  {signatures : List (flowMatch Char)} {s s' : StartTls}

theorem bounded_look (h : Bounded signatures s) (flow : Flow Char) :
    Bounded signatures (s.look max_starttls_exchanges flow) := by
  unfold StartTls.look
  split
  · refine ⟨(detect_sigs flow s.starttls_sensor).trans h.sigs, ?_⟩
    have hhits := detect_hits flow s.starttls_sensor
    have hupgrades := h.upgrades
    cases hpending : s.upgrade_starttls <;>
      cases hmatched : (detect flow s.starttls_sensor).1 <;>
      simp_all <;> omega
  · exact h

theorem bounded_post_write (h : Bounded signatures s) (a : AppHostCX) (l : Int) (com : com_t) :
    Bounded signatures (s.post_write a l com) := by
  unfold StartTls.post_write
  split
  · next hdue =>
    refine ⟨h.sigs, ?_⟩
    have hupgrades := h.upgrades
    simp only [StartTls.due, Bool.and_eq_true] at hdue
    simp only [hdue.2, if_true] at hupgrades
    simpa using hupgrades
  · exact ⟨h.sigs, h.upgrades⟩

theorem bounded_looked (h : Bounded signatures s) (hs : Looked max_starttls_exchanges s s') :
    Bounded signatures s' := by
  obtain rfl | ⟨flow, rfl⟩ := hs
  · exact h
  · exact bounded_look h flow

theorem bounded_write (h : Bounded signatures s) (peercom : Option Bool) (l : Int) (com : com_t) :
    Bounded signatures (s.write cfg max_starttls_exchanges peercom l com) := by
  have hpre : Bounded signatures (s.pre_write cfg max_starttls_exchanges peercom).2 :=
    bounded_looked h (looked_pre_write peercom s)
  unfold StartTls.write
  split
  · next heq =>
    rw [heq] at hpre
    exact hpre
  · next a s₁ heq =>
    rw [heq] at hpre
    split
    · exact bounded_post_write hpre a l com
    · exact hpre

theorem bounded_hooks (h : Bounded signatures s) (o : operation) (com : com_t) :
    Bounded signatures (s.hooks cfg max_starttls_exchanges stream o com) := by
  unfold StartTls.hooks
  split
  · exact bounded_write h _ _ com
  · exact bounded_looked h (looked_read _ s)
  · exact h

theorem bounded_step (h : Bounded signatures s) {a : action}
    (hs : s.step cfg max_starttls_exchanges stream a = some s') : Bounded signatures s' := by
  cases a with
  | op o com =>
    obtain ⟨c, -, rfl⟩ := Option.map_eq_some_iff.mp hs
    have hhooks : Bounded signatures (s.hooks cfg max_starttls_exchanges stream o com) :=
      bounded_hooks h o com
    exact ⟨hhooks.sigs, hhooks.upgrades⟩
  | mode m =>
    obtain rfl := Option.some.inj hs
    exact ⟨h.sigs, h.upgrades⟩

end

/-- In each run, the connection is upgraded at most once for each STARTTLS signature. -/
theorem upgrades_have_signatures (cfg : config) (max_starttls_exchanges : UInt32)
    (stream : Nat → UInt8) (p : chunks) (l4_proto : Int) (mode : apphostcx.mode_t) (com : com_t)
    (signatures : List (flowMatch Char)) (as : List action) :
    Always (StartTls.step cfg max_starttls_exchanges stream)
      (fun s => s.calls.length ≤ hits s.starttls_sensor ∧
        s.starttls_sensor.map sig_state.sig = signatures)
      (start cfg p l4_proto mode com signatures) as := by
  have hstart : Bounded signatures (start cfg p l4_proto mode com signatures) := by
    refine ⟨?_, Nat.zero_le _⟩
    simp [start, Function.comp_def]
  have halways : Always (StartTls.step cfg max_starttls_exchanges stream) (Bounded signatures)
      (start cfg p l4_proto mode com signatures) as :=
    always_of_step (fun s a s' h hs => bounded_step h hs) hstart as
  exact halways.mono fun s h => ⟨(Nat.le_add_right _ _).trans h.upgrades, h.sigs⟩

/-! ## What is left to write -/

/-- What the last upgrade left in the write buffer. -/
def StartTls.left (s : StartTls) : List UInt8 :=
  s.calls.getLastD []

/-- The last upgrade left the end of what had been given before it. With what was given since, this is
what was written since, and what the write buffer has. -/
structure Carried (s : StartTls) : Prop where
  counted : s.before ≤ s.capture.given.length
  early : s.left <:+ s.capture.given.take s.before
  stream : s.since ++ s.capture.app.cx.writebuf_ = s.left ++ s.capture.given.drop s.before

section
variable {cfg : config} {max_starttls_exchanges : UInt32} {stream : Nat → UInt8} {s s' : StartTls}

theorem Carried.writebuf_suffix (h : Carried s) :
    s.capture.app.cx.writebuf_ <:+ s.capture.given := by
  have hwhole : s.left ++ s.capture.given.drop s.before <:+ s.capture.given := by
    obtain ⟨front, hfront⟩ := h.early
    refine ⟨front, ?_⟩
    rw [← List.append_assoc, hfront, List.take_append_drop]
  rw [← h.stream] at hwhole
  exact (List.suffix_append _ _).trans hwhole

/-- More is given. -/
theorem Carried.give (h : Carried s) {b : List UInt8} {capture : Capture}
    (hgiven : capture.given = s.capture.given ++ b)
    (hbuf : capture.app.cx.writebuf_ = s.capture.app.cx.writebuf_ ++ b) :
    Carried { s with capture } where
  counted := by
    rw [hgiven, List.length_append]
    exact h.counted.trans (Nat.le_add_right _ _)
  early := by
    rw [hgiven, List.take_append_of_le_length h.counted]
    exact h.early
  stream := by
    rw [hgiven, hbuf, List.drop_append_of_le_length h.counted, ← List.append_assoc, h.stream,
      List.append_assoc]
    rfl

theorem Carried.look (h : Carried s) (hs : Looked max_starttls_exchanges s s') : Carried s' := by
  obtain rfl | ⟨flow, rfl⟩ := hs
  · exact h
  · unfold StartTls.look
    split
    · exact ⟨h.counted, h.early, h.stream⟩
    · exact h

theorem looked_capture (hs : Looked max_starttls_exchanges s s') : s'.capture = s.capture := by
  obtain rfl | ⟨flow, rfl⟩ := hs
  · rfl
  · unfold StartTls.look
    split <;> rfl

/-- A part of the write buffer is written, and the connection may be upgraded. -/
theorem Carried.post_write (h : Carried s) {a : AppHostCX}
    (ha : a.cx.writebuf_ = s.capture.app.cx.writebuf_) (l : Int) (com : com_t) {capture : Capture}
    (hgiven : capture.given = s.capture.given)
    (hbuf : capture.app.cx.writebuf_ = s.capture.app.cx.writebuf_.drop l.toNat) :
    Carried { s.post_write a l com with capture } := by
  unfold StartTls.post_write
  split
  next =>
    refine ⟨Nat.le_of_eq (congrArg List.length hgiven.symm), ?_, ?_⟩
    · simp only [StartTls.left, List.getLastD_concat, hgiven, List.take_length, ha]
      exact (List.drop_suffix _ _).trans h.writebuf_suffix
    · simp only [StartTls.left, List.getLastD_concat, hgiven, List.drop_length, ha, hbuf,
        List.nil_append, List.append_nil]
  next =>
    refine ⟨h.counted.trans (Nat.le_of_eq (congrArg List.length hgiven.symm)), ?_, ?_⟩
    · rw [hgiven]
      exact h.early
    · simp only [hgiven, hbuf, ha, List.append_assoc, List.take_append_drop]
      exact h.stream

/-- `io_write` is behind a hook that threw nothing. -/
theorem write_out_writebuf {a : AppHostCX} {l : Int} (hthrows : (a.write_out cfg l).1 ≠ none) :
    (a.write_out cfg l).2.2.cx.writebuf_ = a.cx.writebuf_.drop l.toNat := by
  have hleft := (see_out_spec l a.cx).2.2.1
  revert hthrows
  unfold AppHostCX.write_out
  simp only
  split
  next =>
    split
    · exact fun hthrows => absurd rfl hthrows
    · exact fun _ => hleft
  next => exact fun _ => hleft

/-- A `write` comes to `io_write`, and is looked at before. -/
theorem pre_write_some {peercom : Option Bool} {a : AppHostCX}
    (h : s.pre_write cfg max_starttls_exchanges peercom = (some a, s')) :
    a.cx.writebuf_ = s.capture.app.cx.writebuf_ ∧
      ∀ l, s.capture.app.write cfg peercom l = a.write_out cfg l := by
  unfold StartTls.pre_write at h
  simp only at h
  split at h
  next => cases h
  next hwaits =>
    have hwrites : s.capture.app.writes peercom = true := by simpa [AppHostCX.writes] using hwaits
    split at h
    next => cases h
    next b hpre =>
      cases h
      refine ⟨?_, fun l => AppHostCX.write_of_writes hwrites hpre⟩
      rw [(AppHostCX.pre_write_frame hpre).1]
      exact (baseHostCX.waiting_same peercom s.capture.app.cx).1

/-- It waits, or the hook throws. -/
theorem pre_write_none {peercom : Option Bool}
    (h : s.pre_write cfg max_starttls_exchanges peercom = (none, s')) : s' = s ∧
      ∀ l, (s.capture.app.write cfg peercom l).1 ≠ none →
        (s.capture.app.write cfg peercom l).2.2.cx.writebuf_ = s.capture.app.cx.writebuf_ := by
  unfold StartTls.pre_write at h
  simp only at h
  split at h
  next hwaits =>
    cases h
    have hwrites : s.capture.app.writes peercom = false := by
      simpa [AppHostCX.writes] using hwaits
    refine ⟨rfl, fun l _ => ?_⟩
    rw [AppHostCX.write_of_waits hwrites]
    exact (baseHostCX.waiting_same peercom s.capture.app.cx).1
  next hwaits =>
    have hwrites : s.capture.app.writes peercom = true := by simpa [AppHostCX.writes] using hwaits
    split at h
    next b hpre =>
      cases h
      refine ⟨rfl, fun l hthrows => absurd ?_ hthrows⟩
      rw [AppHostCX.write_of_writes hwrites hpre]
      rfl
    next => cases h

theorem Carried.write (h : Carried s) {peercom : Option Bool} {l : Int} (com : com_t)
    {capture : Capture} (hgiven : capture.given = s.capture.given)
    (happ : capture.app = (s.capture.app.write cfg peercom l).2.2)
    (hthrows : (s.capture.app.write cfg peercom l).1 ≠ none) :
    Carried { s.write cfg max_starttls_exchanges peercom l com with capture } := by
  have hlooked : Looked max_starttls_exchanges s
      (s.pre_write cfg max_starttls_exchanges peercom).2 := looked_pre_write peercom s
  rcases hpre : s.pre_write cfg max_starttls_exchanges peercom with ⟨o, s₁⟩
  rw [hpre] at hlooked
  simp only at hlooked
  have hsame := looked_capture hlooked
  cases o with
  | none =>
    obtain ⟨rfl, hwaits⟩ := pre_write_none hpre
    have hbuf := hwaits l hthrows
    rw [← happ] at hbuf
    simp only [StartTls.write, hpre]
    exact h.give (b := []) (by rw [hgiven, List.append_nil]) (by rw [hbuf, List.append_nil])
  | some a =>
    obtain ⟨ha, hwrite⟩ := pre_write_some hpre
    rw [hwrite] at happ hthrows
    have hbuf : capture.app.cx.writebuf_ = s.capture.app.cx.writebuf_.drop l.toNat := by
      rw [happ, write_out_writebuf hthrows, ha]
    rw [← hsame] at ha hgiven hbuf
    have hhook : s.write cfg max_starttls_exchanges peercom l com =
        if l > 0 then s₁.post_write a l com else s₁ := by simp only [StartTls.write, hpre]
    rw [hhook]
    split
    next => exact (h.look hlooked).post_write ha l com hgiven hbuf
    next hl =>
      have hzero : l.toNat = 0 := by omega
      rw [hzero, List.drop_zero] at hbuf
      exact (h.look hlooked).give (b := []) (by rw [hgiven, List.append_nil])
        (by rw [hbuf, List.append_nil])

/-- Whatever comes, unless it throws. -/
theorem carried_step (h : s.capture.thrown = false → Carried s) {a : action}
    (hs : s.step cfg max_starttls_exchanges stream a = some s')
    (hin : s'.capture.thrown = false) : Carried s' := by
  cases a with
  | mode m =>
    cases hs
    exact (h hin).give (b := []) (List.append_nil _).symm (List.append_nil _).symm
  | op o com =>
    obtain ⟨c, hc, rfl⟩ := Option.map_eq_some_iff.mp hs
    cases o with
    | out call =>
      by_cases hwrite : ∃ peercom l, call = .write peercom l
      · obtain ⟨peercom, l, rfl⟩ := hwrite
        obtain ⟨-, -, rfl⟩ := step_write hc
        simp only [Bool.or_eq_false_iff] at hin
        refine (h hin.1).write com rfl rfl fun hnone => ?_
        rw [hnone] at hin
        exact absurd hin.2 (by decide)
      · have hnot : ∀ peercom l, call ≠ .write peercom l :=
          fun peercom l heq => hwrite ⟨peercom, l, heq⟩
        obtain ⟨cx, b, rfl, hbuf, -⟩ := step_out hnot hc
        have hhooks : s.hooks cfg max_starttls_exchanges stream (.out call) com = s := by
          cases call with
          | write peercom l => exact absurd rfl (hnot peercom l)
          | _ => rfl
        rw [hhooks]
        exact (h hin).give rfl hbuf
    | read i =>
      cases hc
      have hside := (AppHostCX.read_frame cfg stream i s.capture.app).1
      have hbuf := congrArg Prod.fst hside
      have hlooked : Looked max_starttls_exchanges s
          (s.read cfg max_starttls_exchanges stream i) := looked_read i s
      have hsame := looked_capture hlooked
      refine ((h hin).look hlooked).give (b := []) ?_ ?_
      · rw [List.append_nil, hsame]
      · rw [List.append_nil, hsame]
        exact hbuf
    | finish | auto_finish | read_waiting_for_peercom =>
      cases hc
      exact (h hin).give (b := []) (List.append_nil _).symm (List.append_nil _).symm

end

/-- In each run in which no write throws, what the last upgrade left in the write buffer is the end of
what had been given before it, and is written through the new com, in front of what is given later. -/
theorem the_rest_goes_through_the_new_com (cfg : config) (max_starttls_exchanges : UInt32)
    (stream : Nat → UInt8) (p : chunks) (l4_proto : Int) (mode : apphostcx.mode_t) (com : com_t)
    (signatures : List (flowMatch Char)) (as : List action) :
    Always (StartTls.step cfg max_starttls_exchanges stream)
      (fun s => s.capture.thrown = false → Carried s)
      (start cfg p l4_proto mode com signatures) as :=
  have hstart : Carried (start cfg p l4_proto mode com signatures) :=
    ⟨Nat.zero_le _, List.nil_suffix, rfl⟩
  always_of_step (P := fun s => s.capture.thrown = false → Carried s)
    (fun _ _ _ h hs hin => carried_step h hs hin) (fun _ => hstart) as

end socle.starttls
