-- What an inspected connection captures of the bytes that it writes: in mode
-- PRE all that it was given, before it is written. In mode POST the bytes that
-- are written are counted twice.
import Socle.AppHostCX

namespace socle.apphostcx

open lib.run hostcx flows

/-! ## The law -/

/-- The flow was given the bytes that are due, each view of the write buffer was inside it, and the
counter is between the bytes that are written and those that are not yet. -/
structure Captured (c : Capture) : Prop where
  bytes : c.app.captured_w = c.given.take c.due_w
  inside : c.thrown = false
  lower : c.app.cx.meter_write_bytes ≤ c.app.peek_write_counter
  upper : c.app.peek_write_counter ≤ c.app.cx.meter_write_bytes + c.app.cx.writebuf_.length

/-- The law, while detection ranges are not exceeded. -/
def WritesCaptured (c : Capture) : Prop :=
  c.app.exceeded = false → Captured c

/-- The connection when `io_write` took `l` bytes. -/
def AppHostCX.raise (l : Int) (a : AppHostCX) : AppHostCX :=
  { a with cx := { a.cx with meter_write_bytes := a.cx.meter_write_bytes + l.toNat } }

/-- Inside the detection ranges `io_write` takes nothing. -/
def TakesNothing (cfg : config) (c : Capture) : operation → Prop
  | .out (.write peercom l) => c.app.exceeded = false → c.app.writes peercom = true → l > 0 →
    (c.app.raise l).inside_detect_ranges cfg = false
  | _ => True

/-! ## Views -/

/-- The last bytes of a buffer. -/
theorem view_end {α : Type} {b : List α} {delta : Nat} (hpos : 0 < delta) (hle : delta ≤ b.length) :
    view (size_sub b.length delta) b.length b = some (b.drop (b.length - delta)) := by
  have hsub : size_sub b.length delta = b.length - delta := if_pos hle
  unfold view
  rw [hsub, if_pos (by omega)]
  split
  next hall =>
    have hzero : b.length - delta = 0 := by omega
    rw [hzero, List.drop_zero, List.take_length]
  next => rfl

/-- With more than all of the bytes a view starts behind the buffer, or far inside it. -/
theorem view_outside {α : Type} {b v : List α} {delta : Nat} (hlt : b.length < delta)
    (hsize : delta < b.length + 2 ^ 64) (h : view (size_sub b.length delta) b.length b = some v) :
    v.length < b.length := by
  have hsub : size_sub b.length delta = b.length + 2 ^ 64 - delta := if_neg (by omega)
  unfold view at h
  rw [hsub] at h
  split at h
  next =>
    rw [if_neg (by omega)] at h
    cases h
    rw [List.length_drop]
    omega
  next => cases h

/-! ## One write -/

namespace AppHostCX

variable {cfg : config} {a a' : AppHostCX}

theorem post_write_of_ne (h : a.mode_ ≠ .POST) (cx : baseHostCX UInt8) :
    post_write cfg { a with cx } = (true, { a with cx }) := by
  simp only [post_write, if_neg h, ite_self]

theorem pre_write_of_post (h : a.mode_ = .POST) : a.pre_write cfg = (true, a) := by
  unfold pre_write
  split
  · rfl
  · rw [if_neg (by rw [h]; decide)]

/-- In mode `PRE` the rest of the buffer is captured. -/
theorem pre_write_spec (cfg : config) (hmode : a.mode_ = .PRE)
    (hlow : a.cx.meter_write_bytes ≤ a.peek_write_counter)
    (hhigh : a.peek_write_counter ≤ a.cx.meter_write_bytes + a.cx.writebuf_.length) {ok : Bool}
    (h : a.pre_write cfg = (ok, a')) (hin : a'.exceeded = false) :
    ok = true ∧ a'.mode_ = .PRE ∧
      a'.captured_w =
        a.captured_w ++ a.cx.writebuf_.drop (a.peek_write_counter - a.cx.meter_write_bytes) ∧
      a'.peek_write_counter = a.cx.meter_write_bytes + a.cx.writebuf_.length := by
  unfold pre_write at h
  by_cases hnil : a.cx.writebuf_ = []
  · rw [if_pos hnil] at h
    cases h
    rw [hnil, List.length_nil] at hhigh
    rw [hnil, List.drop_nil, List.append_nil, List.length_nil]
    exact ⟨rfl, hmode, rfl, by omega⟩
  rw [if_neg hnil, if_pos (Or.inl hmode)] at h
  cases hc : a.inside_detect_on_continue cfg with
  | mk b a₁ =>
    obtain ⟨-, -, -, hcases⟩ := inside_detect_on_continue_spec a hc
    rw [hc] at h
    rcases hcases with ⟨-, rfl, rfl⟩ | hex
    · simp only at h
      have hdelta : size_sub (a₁.cx.meter_write_bytes + a₁.cx.writebuf_.length)
          a₁.peek_write_counter =
          a₁.cx.meter_write_bytes + a₁.cx.writebuf_.length - a₁.peek_write_counter := if_pos hhigh
      rw [hdelta] at h
      split at h
      next hmore =>
        rw [view_end hmore (by omega)] at h
        have hne : (a₁.append_w cfg (a₁.cx.writebuf_.drop (a₁.cx.writebuf_.length -
          (a₁.cx.meter_write_bytes + a₁.cx.writebuf_.length - a₁.peek_write_counter)))).mode_ ≠
            .CONTINUOUS := by
          change a₁.mode_ ≠ .CONTINUOUS
          rw [hmode]
          decide
        simp only [if_neg hne] at h
        cases h
        have hstart : a₁.cx.writebuf_.length -
            (a₁.cx.meter_write_bytes + a₁.cx.writebuf_.length - a₁.peek_write_counter) =
            a₁.peek_write_counter - a₁.cx.meter_write_bytes := by omega
        refine ⟨rfl, hmode, ?_, ?_⟩
        · simp only [append_w, hstart]
        · simp only [append_w, List.length_drop]
          omega
      next hnone =>
        have hall : a₁.cx.writebuf_.length ≤ a₁.peek_write_counter - a₁.cx.meter_write_bytes := by
          omega
        cases h
        rw [List.drop_eq_nil_of_le hall, List.append_nil]
        exact ⟨rfl, hmode, rfl, by omega⟩
    · -- the ranges are exceeded
      have hexceeds : a'.exceeded = a₁.exceeded := by
        cases b with
        | false =>
          cases h
          rfl
        | true =>
          simp only at h
          split at h
          · split at h
            next =>
              cases h
              rfl
            next =>
              cases h
              split
              · exact (continuous_mode_keeper_spec _ _).2.2.2
              · rfl
          · cases h
            rfl
      rw [hexceeds, hex] at hin
      cases hin

end AppHostCX

/-- What `write` offers and leaves of the buffer. -/
theorem see_out_spec (l : Int) (cx : baseHostCX UInt8) :
    (cx.see_out baseHostCX.process_out).writebuf_ = cx.writebuf_ ∧
      (cx.see_out baseHostCX.process_out).offer = cx.writebuf_ ∧
      ((cx.see_out baseHostCX.process_out).after_write l).writebuf_ = cx.writebuf_.drop l.toNat ∧
      ((cx.see_out baseHostCX.process_out).after_write l).meter_write_bytes =
        cx.meter_write_bytes + l.toNat := by
  obtain ⟨hbuf, hmeter, -⟩ := baseHostCX.after_write_spec l (cx.see_out baseHostCX.process_out)
  have hseen : (cx.see_out baseHostCX.process_out).writebuf_ = cx.writebuf_ := by
    unfold baseHostCX.see_out baseHostCX.process_out
    split <;> rfl
  refine ⟨hseen, ?_, ?_, ?_⟩
  · rw [baseHostCX.offer_all process_out_whole, hseen]
  · rw [hbuf, hseen]
  · rw [hmeter, baseHostCX.see_out_meter]

namespace AppHostCX

variable {cfg : config} {a a' : AppHostCX} {peercom : Option Bool} {l : Int}

theorem write_of_waits (h : a.writes peercom = false) :
    a.write cfg peercom l =
      (some 0, none, { a with cx := a.cx.write_waiting_for_peercom peercom }) := by
  unfold write
  exact if_pos (by simpa [writes] using h)

theorem write_of_writes (h : a.writes peercom = true) {ok : Bool}
    (hpre : pre_write cfg { a with cx := a.cx.write_waiting_for_peercom peercom } = (ok, a')) :
    a.write cfg peercom l = if ok then a'.write_out cfg l else (none, none, a') := by
  have hwaits : ¬ (a.cx.write_waiting_for_peercom peercom).write_waiting_for_peercom_ = true := by
    simpa [writes] using h
  unfold write
  simp only [if_neg hwaits, hpre]
  cases ok <;> rfl

/-- Outside mode `POST` nothing comes after `io_write` but the flush. -/
theorem write_out_of_ne (h : a.mode_ ≠ .POST) (l : Int) :
    a.write_out cfg l = (some (down_cast l), some { data := a.cx.writebuf_, l },
      { a with cx := (a.cx.see_out baseHostCX.process_out).after_write l }) := by
  unfold write_out
  simp only [(see_out_spec l a.cx).2.1]
  split
  next => rw [post_write_of_ne h]
  next => rfl

/-- A `write` in mode `PRE`. -/
theorem write_pre (hmode : a.mode_ = .PRE)
    (hlow : a.cx.meter_write_bytes ≤ a.peek_write_counter)
    (hhigh : a.peek_write_counter ≤ a.cx.meter_write_bytes + a.cx.writebuf_.length)
    (hwrites : a.writes peercom = true) (hin : (a.write cfg peercom l).2.2.exceeded = false) :
    ∃ a', a.write cfg peercom l = (some (down_cast l), some { data := a.cx.writebuf_, l }, a') ∧
      a'.mode_ = .PRE ∧
      a'.captured_w =
        a.captured_w ++ a.cx.writebuf_.drop (a.peek_write_counter - a.cx.meter_write_bytes) ∧
      a'.peek_write_counter = a.cx.meter_write_bytes + a.cx.writebuf_.length ∧
      a'.cx.writebuf_ = a.cx.writebuf_.drop l.toNat ∧
      a'.cx.meter_write_bytes = a.cx.meter_write_bytes + l.toNat := by
  obtain ⟨hbuf, hmeter, -⟩ := baseHostCX.waiting_same peercom a.cx
  rcases hpre : pre_write cfg { a with cx := a.cx.write_waiting_for_peercom peercom } with ⟨ok, b⟩
  have hspec := fun hex => pre_write_spec cfg
    (a := { a with cx := a.cx.write_waiting_for_peercom peercom }) hmode (by simpa only [hmeter])
    (by simpa only [hmeter, hbuf]) hpre hex
  simp only [hbuf, hmeter] at hspec
  obtain ⟨hcx, -, -⟩ := pre_write_frame hpre
  rw [write_of_writes hwrites hpre] at hin ⊢
  cases ok with
  | false => exact absurd (hspec hin).1 (by decide)
  | true =>
    simp only [if_true] at hin ⊢
    obtain ⟨-, hbmode, hcaptured, hpeek⟩ := hspec ((write_out_frame cfg l b).2 hin).1
    obtain ⟨-, -, hleft, hraised⟩ := see_out_spec l b.cx
    rw [write_out_of_ne (by rw [hbmode]; decide)]
    rw [hcx] at hleft hraised ⊢
    rw [hbuf]
    exact ⟨_, rfl, hbmode, hcaptured, hpeek, hleft.trans (by rw [hbuf]),
      hraised.trans (by rw [hmeter])⟩

end AppHostCX

/-- The calls of the read side, while the ranges are not exceeded. -/
theorem step_in {cfg : config} {stream : Nat → UInt8} {c c' : Capture} {o : operation}
    (ho : ∀ call, o ≠ .out call) (hs : step cfg stream c o = some c')
    (hin : c'.app.exceeded = false) :
    c.app.exceeded = false ∧ c'.app.write_side = c.app.write_side ∧
      (c.app.mode_ ≠ .CONTINUOUS → c'.app.mode_ = c.app.mode_) ∧ c'.given = c.given ∧
      c'.due_w = c.due_w ∧ c'.thrown = c.thrown := by
  cases o with
  | out call => exact absurd rfl (ho call)
  | read i =>
    cases hs
    obtain ⟨hside, hsteady⟩ := AppHostCX.read_frame cfg stream i c.app
    obtain ⟨hex, hmode⟩ := hsteady hin
    exact ⟨hex, hside, hmode, rfl, rfl, rfl⟩
  | finish =>
    cases hs
    exact ⟨hin, rfl, fun _ => rfl, rfl, rfl, rfl⟩
  | auto_finish a =>
    cases hs
    exact ⟨hin, rfl, fun _ => rfl, rfl, rfl, rfl⟩
  | read_waiting_for_peercom p =>
    cases hs
    exact ⟨hin, rfl, fun _ => rfl, rfl, rfl, rfl⟩

/-! ## Mode PRE -/

/-- The invariant: what is due was captured, and more than that was not written. -/
structure Ahead (c : Capture) : Prop where
  mode : c.app.mode_ = .PRE
  inside : c.thrown = false
  rest : c.app.cx.writebuf_ = c.given.drop c.app.cx.meter_write_bytes
  counter : c.app.peek_write_counter = c.due_w
  low : c.app.cx.meter_write_bytes ≤ c.due_w
  high : c.due_w ≤ c.given.length
  bytes : c.app.captured_w = c.given.take c.due_w

theorem Ahead.captured {c : Capture} (h : Ahead c) : Captured c where
  bytes := h.bytes
  inside := h.inside
  lower := by
    rw [h.counter]
    exact h.low
  upper := by
    have hlow := h.low
    have hhigh := h.high
    rw [h.counter, h.rest, List.length_drop]
    omega

section
variable {cfg : config} {stream : Nat → UInt8} {c c' : Capture}

/-- A step that changes no byte and no counter of the write side. -/
theorem Ahead.frame (h : Ahead c) (hside : c'.app.write_side = c.app.write_side)
    (hmode : c'.app.mode_ = c.app.mode_) (hgiven : c'.given = c.given) (hdue : c'.due_w = c.due_w)
    (hthrown : c'.thrown = c.thrown) : Ahead c' := by
  simp only [AppHostCX.write_side, Prod.mk.injEq] at hside
  obtain ⟨hbuf, hmeter, hpeek, hcaptured⟩ := hside
  refine ⟨hmode.trans h.mode, hthrown.trans h.inside, ?_, ?_, ?_, ?_, ?_⟩
  · rw [hbuf, hmeter, hgiven]
    exact h.rest
  · rw [hpeek, hdue]
    exact h.counter
  · rw [hmeter, hdue]
    exact h.low
  · rw [hdue, hgiven]
    exact h.high
  · rw [hcaptured, hgiven, hdue]
    exact h.bytes

theorem Ahead.give (h : Ahead c) {b : List UInt8} (hgiven : c'.given = c.given ++ b)
    (hbuf : c'.app.cx.writebuf_ = c.app.cx.writebuf_ ++ b)
    (hmeter : c'.app.cx.meter_write_bytes = c.app.cx.meter_write_bytes)
    (hmode : c'.app.mode_ = c.app.mode_)
    (hpeek : c'.app.peek_write_counter = c.app.peek_write_counter)
    (hcaptured : c'.app.captured_w = c.app.captured_w) (hdue : c'.due_w = c.due_w)
    (hthrown : c'.thrown = c.thrown) : Ahead c' := by
  have hlow := h.low
  have hhigh := h.high
  refine ⟨hmode.trans h.mode, hthrown.trans h.inside, ?_, ?_, ?_, ?_, ?_⟩
  · rw [hbuf, h.rest, hgiven, hmeter, List.drop_append_of_le_length (by omega)]
  · rw [hpeek, hdue]
    exact h.counter
  · rw [hmeter, hdue]
    exact h.low
  · rw [hdue, hgiven, List.length_append]
    omega
  · rw [hcaptured, hgiven, hdue, List.take_append_of_le_length h.high]
    exact h.bytes

/-- A `write`. All that was given is due, and captured. -/
theorem Ahead.write (h : Ahead c) {peercom : Option Bool} {l : Int}
    (hs : step cfg stream c (.out (.write peercom l)) = some c') (hin : c'.app.exceeded = false) :
    Ahead c' := by
  have hlow := h.low
  have hhigh := h.high
  obtain ⟨hfits, -, rfl⟩ := step_write hs
  clear hs
  cases hwrites : c.app.writes peercom with
  | false =>
    obtain ⟨hbuf, hmeter, -⟩ := baseHostCX.waiting_same peercom c.app.cx
    have hdue : c.app.due_in_write peercom l = false := by
      simp only [AppHostCX.due_in_write, hwrites, Bool.false_and]
    simp only [AppHostCX.write_of_waits hwrites, hdue]
    refine h.frame ?_ rfl rfl rfl (Bool.or_false _)
    simp only [AppHostCX.write_side, hbuf, hmeter]
  | true =>
    have hdue : c.app.due_in_write peercom l = true := by
      simp [AppHostCX.due_in_write, hwrites, h.mode]
    obtain ⟨a, heq, hmode, hcaptured, hpeek, hbuf, hmeter⟩ :=
      AppHostCX.write_pre h.mode (by rw [h.counter]; exact hlow) h.captured.upper hwrites hin
    rw [heq] at hfits
    have hl := hfits _ rfl
    have hlength : c.app.cx.writebuf_.length = c.given.length - c.app.cx.meter_write_bytes := by
      rw [h.rest, List.length_drop]
    simp only at hl
    simp only [heq, hdue, if_true]
    refine ⟨hmode, by simp [h.inside], ?_, ?_, ?_, Nat.le_refl _, ?_⟩
    · rw [hbuf, hmeter, h.rest, List.drop_drop]
    · change a.peek_write_counter = c.given.length
      rw [hpeek, hlength]
      omega
    · change a.cx.meter_write_bytes ≤ c.given.length
      rw [hmeter]
      omega
    · rw [hcaptured, h.bytes, h.rest, h.counter, List.drop_drop, Nat.add_sub_cancel' hlow,
        List.take_append_drop, List.take_length]

/-- Whatever comes in mode `PRE`. -/
theorem step_ahead (h : c.app.exceeded = false → Ahead c) {o : operation}
    (hs : step cfg stream c o = some c') (hin : c'.app.exceeded = false) : Ahead c' := by
  cases o with
  | out call =>
    by_cases hwrite : ∃ peercom l, call = .write peercom l
    · obtain ⟨peercom, l, rfl⟩ := hwrite
      have hstart : c.app.exceeded = false := by
        obtain ⟨-, -, rfl⟩ := step_write hs
        exact ((AppHostCX.write_frame cfg peercom l c.app).2 hin).1
      exact (h hstart).write hs hin
    · obtain ⟨cx, b, rfl, hbuf, hmeter⟩ :=
        step_out (fun peercom l heq => hwrite ⟨peercom, l, heq⟩) hs
      exact (h hin).give rfl hbuf hmeter rfl rfl rfl rfl rfl
  | _ =>
    obtain ⟨hex, hside, hmode, hgiven, hdue, hthrown⟩ := step_in (by simp) hs hin
    exact (h hex).frame hside (hmode (by rw [(h hex).mode]; decide)) hgiven hdue hthrown

end

/-! ## Mode POST -/

/-- The invariant: nothing was written yet, and nothing is due. -/
structure Unwritten (c : Capture) : Prop where
  mode : c.app.mode_ = .POST
  inside : c.thrown = false
  rest : c.app.cx.writebuf_ = c.given
  meter : c.app.cx.meter_write_bytes = 0
  counter : c.app.peek_write_counter = 0
  due : c.due_w = 0
  bytes : c.app.captured_w = []

theorem Unwritten.captured {c : Capture} (h : Unwritten c) : Captured c where
  bytes := by rw [h.bytes, h.due, List.take_zero]
  inside := h.inside
  lower := by rw [h.meter, h.counter]
  upper := by
    rw [h.counter]
    exact Nat.zero_le _

section
variable {cfg : config} {stream : Nat → UInt8} {c c' : Capture}

theorem Unwritten.frame (h : Unwritten c) (hside : c'.app.write_side = c.app.write_side)
    (hmode : c'.app.mode_ = c.app.mode_) (hgiven : c'.given = c.given) (hdue : c'.due_w = c.due_w)
    (hthrown : c'.thrown = c.thrown) : Unwritten c' := by
  simp only [AppHostCX.write_side, Prod.mk.injEq] at hside
  obtain ⟨hbuf, hmeter, hpeek, hcaptured⟩ := hside
  exact ⟨hmode.trans h.mode, hthrown.trans h.inside, hbuf.trans (h.rest.trans hgiven.symm),
    hmeter.trans h.meter, hpeek.trans h.counter, hdue.trans h.due, hcaptured.trans h.bytes⟩

theorem write_of_post {a : AppHostCX} (hmode : a.mode_ = .POST) {peercom : Option Bool} {l : Int}
    (hwrites : a.writes peercom = true) :
    a.write cfg peercom l =
      AppHostCX.write_out cfg l { a with cx := a.cx.write_waiting_for_peercom peercom } :=
  (AppHostCX.write_of_writes hwrites (AppHostCX.pre_write_of_post hmode)).trans (if_pos rfl)

/-- A `write` of which nothing is taken. -/
theorem Unwritten.write (h : Unwritten c) {peercom : Option Bool} {l : Int}
    (hs : step cfg stream c (.out (.write peercom l)) = some c')
    (hnone : c.app.writes peercom = true → l ≤ 0) : Unwritten c' := by
  obtain ⟨hbuf, hmeter, -⟩ := baseHostCX.waiting_same peercom c.app.cx
  obtain ⟨-, -, rfl⟩ := step_write hs
  cases hwrites : c.app.writes peercom with
  | false =>
    have hdue : c.app.due_in_write peercom l = false := by
      simp only [AppHostCX.due_in_write, hwrites, Bool.false_and]
    simp only [AppHostCX.write_of_waits hwrites, hdue]
    refine h.frame ?_ rfl rfl rfl (Bool.or_false _)
    simp only [AppHostCX.write_side, hbuf, hmeter]
  | true =>
    have hl := hnone hwrites
    have hdue : c.app.due_in_write peercom l = false := by
      simp [AppHostCX.due_in_write, h.mode, hl]
    have hzero : l.toNat = 0 := by omega
    obtain ⟨-, -, hleft, hraised⟩ := see_out_spec l (c.app.cx.write_waiting_for_peercom peercom)
    simp only [write_of_post h.mode hwrites, AppHostCX.write_out, if_neg (Int.not_lt.mpr hl), hdue]
    refine h.frame ?_ rfl rfl rfl (Bool.or_false _)
    simp only [AppHostCX.write_side, hleft, hraised, hbuf, hmeter, hzero, List.drop_zero,
      Nat.add_zero]

/-- After the meter is raised the view is too long. -/
theorem post_write_overlaps (cfg : config) {a a' : AppHostCX} {ok : Bool} (hmode : a.mode_ = .POST)
    (hne : a.cx.writebuf_ ≠ []) (hin : a.inside_detect_ranges cfg = true)
    (hpeek : a.peek_write_counter = 0) (hcaptured : a.captured_w = [])
    (hpos : 0 < a.cx.meter_write_bytes) (hsize : a.cx.meter_write_bytes < 2 ^ 63)
    (h : a.post_write cfg = (ok, a')) :
    a'.exceeded = a.exceeded ∧ (ok = false ∨ a'.captured_w.length < a.cx.writebuf_.length) := by
  unfold AppHostCX.post_write at h
  rw [if_neg hne, if_pos hmode, AppHostCX.detect_ranges_inside hin] at h
  simp only at h
  by_cases hempty : a.flow.flow_queue_ = []
  · rw [if_pos hempty] at h
    cases h
    exact ⟨rfl, Or.inl rfl⟩
  have hdelta : size_sub (a.cx.meter_write_bytes + a.cx.writebuf_.length) a.peek_write_counter =
      a.cx.meter_write_bytes + a.cx.writebuf_.length := by
    rw [hpeek]
    exact if_pos (Nat.zero_le _)
  rw [if_neg hempty, hdelta] at h
  cases hview : view (size_sub a.cx.writebuf_.length
      (a.cx.meter_write_bytes + a.cx.writebuf_.length)) a.cx.writebuf_.length a.cx.writebuf_ with
  | none =>
    rw [hview] at h
    cases h
    exact ⟨rfl, Or.inl rfl⟩
  | some v =>
    have hv := view_outside (by omega) (by omega) hview
    rw [hview] at h
    simp only [if_pos (show 0 < a.cx.meter_write_bytes + a.cx.writebuf_.length by omega)] at h
    cases h
    refine ⟨rfl, Or.inr ?_⟩
    simpa only [AppHostCX.append_w, hcaptured, List.nil_append] using hv

theorem post_write_outside (cfg : config) {a a' : AppHostCX} {ok : Bool} (hmode : a.mode_ = .POST)
    (hne : a.cx.writebuf_ ≠ []) (hin : a.inside_detect_ranges cfg = false)
    (h : a.post_write cfg = (ok, a')) : a'.exceeded = true := by
  unfold AppHostCX.post_write at h
  rw [if_neg hne, if_pos hmode, AppHostCX.detect_ranges_outside hin] at h
  cases h
  rfl

/-- The connection that `post_write` finds. -/
theorem inside_raised (a : AppHostCX) {l : Int} (cx : baseHostCX UInt8)
    (hmeter : cx.meter_write_bytes = a.cx.meter_write_bytes + l.toNat) :
    AppHostCX.inside_detect_ranges cfg { a with cx } = (a.raise l).inside_detect_ranges cfg :=
  AppHostCX.inside_detect_ranges_eq (congrArg (· + a.inp.meter_read_bytes) hmeter) rfl

/-- What comes after an `io_write` that took something. -/
theorem write_out_post (cfg : config) {a : AppHostCX} (hmode : a.mode_ = .POST) {l : Int} (hl : l > 0)
    (hfits : ∀ t ∈ (a.write_out cfg l).2.1, l ≤ t.data.length) :
    ((a.raise l).inside_detect_ranges cfg = false → (a.write_out cfg l).2.2.exceeded = true) ∧
      ((a.raise l).inside_detect_ranges cfg = true → a.peek_write_counter = 0 →
        a.captured_w = [] → a.cx.meter_write_bytes = 0 → l < 2 ^ 63 →
        (a.write_out cfg l).2.2.exceeded = a.exceeded ∧ ((a.write_out cfg l).1 = none ∨
          (a.write_out cfg l).2.2.captured_w.length < a.cx.writebuf_.length)) := by
  obtain ⟨hseen, hoffer, -, -⟩ := see_out_spec l a.cx
  have hmeter : (a.cx.see_out baseHostCX.process_out).meter_write_bytes =
      a.cx.meter_write_bytes := baseHostCX.see_out_meter a.cx
  simp only [AppHostCX.write_out, if_pos hl, hoffer] at hfits ⊢
  generalize hcx : { a.cx.see_out baseHostCX.process_out with
    meter_write_bytes := (a.cx.see_out baseHostCX.process_out).meter_write_bytes + l.toNat
    meter_write_count := (a.cx.see_out baseHostCX.process_out).meter_write_count + 1
    opening_ := false } = cx at hfits ⊢
  have hbuf : cx.writebuf_ = a.cx.writebuf_ := by
    rw [← hcx]
    exact hseen
  have hraised : cx.meter_write_bytes = a.cx.meter_write_bytes + l.toNat := by
    rw [← hcx, ← hmeter]
  rcases hpost : AppHostCX.post_write cfg { a with cx } with ⟨ok, a'⟩
  rw [hpost] at hfits
  have hlength : l ≤ a.cx.writebuf_.length := by
    cases ok <;> exact hfits _ rfl
  have hne : cx.writebuf_ ≠ [] := by
    rw [hbuf]
    intro hnil
    rw [hnil, List.length_nil] at hlength
    omega
  constructor
  · intro hout
    have hexceeded := post_write_outside cfg (a := { a with cx }) hmode hne
      ((inside_raised a cx hraised).trans hout) hpost
    cases ok <;> exact hexceeded
  · intro hin hpeek hcaptured hzero hsize
    obtain ⟨hexceeded, hshort⟩ := post_write_overlaps cfg (a := { a with cx }) hmode hne
      ((inside_raised a cx hraised).trans hin) hpeek hcaptured (by simp only [hraised]; omega)
      (by simp only [hraised]; omega) hpost
    cases ok with
    | false => exact ⟨hexceeded, Or.inl rfl⟩
    | true =>
      rcases hshort with hshort | hshort
      · cases hshort
      · exact ⟨hexceeded, Or.inr (hshort.trans_eq (congrArg List.length hbuf))⟩

/-- A `write` of which something is taken inside the ranges. -/
theorem Unwritten.fails (h : Unwritten c) {peercom : Option Bool} {l : Int}
    (hs : step cfg stream c (.out (.write peercom l)) = some c') (hex : c.app.exceeded = false)
    (hwrites : c.app.writes peercom = true) (hl : l > 0)
    (hin : (c.app.raise l).inside_detect_ranges cfg = true) : ¬ WritesCaptured c' := by
  obtain ⟨hbuf, hmeter, -⟩ := baseHostCX.waiting_same peercom c.app.cx
  obtain ⟨hfits, hsize, rfl⟩ := step_write hs
  have hdue : c.app.due_in_write peercom l = true := by
    simp [AppHostCX.due_in_write, hwrites, h.mode, hl]
  rw [write_of_post h.mode hwrites] at hfits
  obtain ⟨-, hover⟩ := write_out_post cfg
    (a := { c.app with cx := c.app.cx.write_waiting_for_peercom peercom }) h.mode hl hfits
  obtain ⟨hexceeded, hshort⟩ := hover
    ((inside_raised c.app { c.app.cx.write_waiting_for_peercom peercom with
      meter_write_bytes := _ } (by rw [hmeter])).trans hin)
    h.counter h.bytes (hmeter.trans h.meter) hsize
  simp only [write_of_post h.mode hwrites, hdue, if_true]
  intro hall
  have hlaw := hall (hexceeded.trans hex)
  rcases hshort with hthrown | hshort
  · have hinside := hlaw.inside
    simp [hthrown] at hinside
  · have hbytes := congrArg List.length hlaw.bytes
    simp only [hbuf, h.rest] at hshort
    simp only [List.take_length] at hbytes
    omega

/-- Whatever comes in mode `POST`. -/
theorem step_unwritten (h : c.app.exceeded = false → Unwritten c) {o : operation}
    (hnothing : TakesNothing cfg c o) (hs : step cfg stream c o = some c')
    (hin : c'.app.exceeded = false) : Unwritten c' := by
  cases o with
  | out call =>
    by_cases hwrite : ∃ peercom l, call = .write peercom l
    · obtain ⟨peercom, l, rfl⟩ := hwrite
      have hstart : c.app.exceeded = false := by
        obtain ⟨-, -, rfl⟩ := step_write hs
        exact ((AppHostCX.write_frame cfg peercom l c.app).2 hin).1
      have hold := h hstart
      refine hold.write hs fun hwrites => ?_
      by_contra hl
      -- the ranges are exceeded by what was taken
      obtain ⟨-, hmeter, -⟩ := baseHostCX.waiting_same peercom c.app.cx
      obtain ⟨hfits, -, rfl⟩ := step_write hs
      rw [write_of_post hold.mode hwrites] at hfits
      simp only [write_of_post hold.mode hwrites] at hin
      have hexceeded := (write_out_post cfg
        (a := { c.app with cx := c.app.cx.write_waiting_for_peercom peercom }) hold.mode
        (Int.not_le.mp hl) hfits).1
        ((inside_raised c.app { c.app.cx.write_waiting_for_peercom peercom with
          meter_write_bytes := _ } (by rw [hmeter])).trans
          (hnothing hstart hwrites (Int.not_le.mp hl)))
      rw [hexceeded] at hin
      cases hin
    · obtain ⟨cx, b, rfl, hbuf, hmeter⟩ :=
        step_out (fun peercom l heq => hwrite ⟨peercom, l, heq⟩) hs
      have hold := h hin
      exact ⟨hold.mode, hold.inside, hbuf.trans (by rw [hold.rest]), hmeter.trans hold.meter,
        hold.counter, hold.due, hold.bytes⟩
  | _ =>
    obtain ⟨hex, hside, hmode, hgiven, hdue, hthrown⟩ := step_in (by simp) hs hin
    exact (h hex).frame hside (hmode (by rw [(h hex).mode]; decide)) hgiven hdue hthrown

end

/-! ## Each run -/

/-- Mode `PRE` captures what is given to the connection in each run. Mode `POST` does in a run when,
and only when, inside the detection ranges nothing is taken. -/
theorem writes_are_captured (cfg : config) (stream : Nat → UInt8) (p : chunks) (l4_proto : Int) :
    (∀ ops, Always (step cfg stream) WritesCaptured (start cfg p l4_proto .PRE) ops) ∧
      ∀ ops, Always (step cfg stream) WritesCaptured (start cfg p l4_proto .POST) ops ↔
        Meets (step cfg stream) (TakesNothing cfg) (start cfg p l4_proto .POST) ops := by
  constructor
  · intro ops
    have hstart : (start cfg p l4_proto .PRE).app.exceeded = false →
        Ahead (start cfg p l4_proto .PRE) :=
      fun _ => ⟨rfl, rfl, rfl, rfl, Nat.le_refl _, Nat.le_refl _, rfl⟩
    exact (always_of_step (P := fun c : Capture => c.app.exceeded = false → Ahead c)
      (fun _ _ _ h hs hin => step_ahead h hs hin) hstart ops).mono fun c h hin => (h hin).captured
  · have hstart : (start cfg p l4_proto .POST).app.exceeded = false →
        Unwritten (start cfg p l4_proto .POST) :=
      fun _ => ⟨rfl, rfl, rfl, rfl, rfl, rfl, rfl⟩
    refine always_iff_meets (P := fun c => c.app.exceeded = false → Unwritten c)
      (fun c h hin => (h hin).captured) (fun _ _ _ h hnothing hs hin =>
        step_unwritten h hnothing hs hin) ?_ hstart
    intro c o c' h hbad hs
    match o with
    | .out (.write peercom l) =>
      simp only [TakesNothing, Classical.not_imp, Bool.not_eq_false] at hbad
      obtain ⟨hex, hwrites, hl, hin⟩ := hbad
      exact (h hex).fails hs hex hwrites hl hin
    | .out (.to_write_buffer ..) | .out (.to_write_string _) | .out (.to_write_ptr ..)
    | .out (.write_waiting_for_peercom _) | .out (.close_after_write _) | .out (.opening _)
    | .read _ | .finish | .auto_finish _ | .read_waiting_for_peercom _ =>
      exact absurd trivial hbad

/-- Three bytes are read, and three are written. -/
def three_bytes : List operation :=
  [.read { peek := fun _ => -1, cur_io_len := 3, processed := 3 },
    .out (.to_write_string [1, 2, 3]), .out (.write none 3)]

/-- The meter counts the bytes that are still in the buffer. -/
theorem the_view_is_outside :
    ¬ ∀ (stream : Nat → UInt8) (p : chunks) (ops : List operation),
      Always (step {} stream) WritesCaptured (start {} p SOCK_STREAM .POST) ops := by
  intro hall
  have hrun : (exec (step {} fun _ => 0) (start {} .plenty SOCK_STREAM .POST) three_bytes).map
      (fun c => (c.app.exceeded, c.thrown)) = some (false, true) := by decide
  obtain ⟨c, hexec, hc⟩ := Option.map_eq_some_iff.mp hrun
  obtain ⟨hin, hthrown⟩ := Prod.mk.inj hc
  have hinside := (always_exec (hall (fun _ => 0) .plenty three_bytes) hexec hin).inside
  rw [hthrown] at hinside
  cases hinside

end socle.apphostcx
