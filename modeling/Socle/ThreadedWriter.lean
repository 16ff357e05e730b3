-- The writer with a queue (traflog/threadedpoolwriter.cpp). A write is
-- accepted when it is queued. The worker thread takes the queue to the
-- streams, until it sees the signal to stop.
import Socle.Lib.Run
import Socle.PoolWriter

namespace socle.traflog

open lib.run

variable {F β : Type} [DecidableEq F]

/-! ## Data -/

/-- Where the worker is: at `while(! stop_signal_)`, at the lock of the queue, or at its end. -/
inductive worker_state
  | testing | taking | gone
deriving DecidableEq, Repr

/-- `threadedPoolFileWriter`. `accepted` is not in the code: it records the writes that were
queued. -/
structure threadedPoolFileWriter (F β : Type) [DecidableEq F] where
  writer : poolFileWriter F β := {}
  task_queue_ : List (F × List β) := []
  stop_signal_ : Bool := false
  worker_thread_ : worker_state := .testing
  accepted : List (F × List β) := []

namespace threadedPoolFileWriter

def write (w : threadedPoolFileWriter F β) (fnm : F) (buf : List β) : threadedPoolFileWriter F β :=
  { w with
    task_queue_ := w.task_queue_ ++ [(fnm, buf)]
    accepted := w.accepted ++ [(fnm, buf)] }

/-- The next step of `worker`. The lock is held from the look at the queue to `pop`. -/
def worker (w : threadedPoolFileWriter F β) : Option (threadedPoolFileWriter F β) :=
  match w.worker_thread_ with
  | .testing => some { w with worker_thread_ := if w.stop_signal_ then .gone else .taking }
  | .taking =>
    match w.task_queue_ with
    | [] => some { w with worker_thread_ := .testing }
    | (fnm, buf) :: rest => some { w with
        writer := (w.writer.write fnm buf).2
        task_queue_ := rest
        worker_thread_ := .testing }
  | .gone => none

/-- A call of the pool below. -/
def base (w : threadedPoolFileWriter F β) (writer : poolFileWriter F β) :
    threadedPoolFileWriter F β :=
  { w with writer }

end threadedPoolFileWriter

/-- What the callers, the worker, the destructor and other programs do. -/
inductive writer_event (F β : Type)
  | write (fnm : F) (buf : List β)
  | flush (fnm : F)
  | close (fnm : F)
  | open_ (fnm : F)
  | recreate (fnm : F)
  | worker
  | destroy
  | outside (disk : file_system F β)

/-- The destructor sets the signal and waits for the worker. From then on there are no calls. -/
def writer_step (w : threadedPoolFileWriter F β) (a : writer_event F β) :
    Option (threadedPoolFileWriter F β) :=
  match a with
  | .worker => w.worker
  | .outside disk => some (w.base { w.writer with disk })
  | a =>
    if w.stop_signal_ then none
    else
      match a with
      | .write fnm buf => some (w.write fnm buf)
      | .flush fnm => some (w.base (w.writer.flush fnm).2)
      | .close fnm => some (w.base (w.writer.close fnm).2)
      | .open_ fnm => some (w.base (w.writer.open_ fnm).2)
      | .recreate fnm => some (w.base (w.writer.recreate fnm).2)
      | _ => some { w with stop_signal_ := true }

/-! ## The law -/

/-- The data that a list of writes has for a file, write by write. -/
def data_of (fnm : F) (writes : List (F × List β)) : List (List β) :=
  (writes.filter fun c => decide (c.1 = fnm) && !c.2.isEmpty).map Prod.snd

/-- For each file, its streams were given the data of the accepted writes in their order, but for
those that are queued. A worker that goes on brings these to the streams, and one that is gone has
brought them. -/
structure Delivered (w : threadedPoolFileWriter F β) : Prop where
  ordered : ∀ fnm, data_of fnm w.writer.handed ++ data_of fnm w.task_queue_ =
    data_of fnm w.accepted
  drained : w.stop_signal_ = false → ∃ n w',
    exec writer_step w (List.replicate n .worker) = some w' ∧
      ∀ fnm, data_of fnm w'.writer.handed = data_of fnm w.accepted
  ended : w.worker_thread_ = .gone →
    ∀ fnm, data_of fnm w.writer.handed = data_of fnm w.accepted

/-- When the worker sees the signal to stop, no data are queued. -/
def NothingQueued (w : threadedPoolFileWriter F β) : writer_event F β → Prop
  | .worker => w.worker_thread_ = .testing → w.stop_signal_ = true →
    ∀ c ∈ w.task_queue_, c.2 = []
  | _ => True

/-! ## The data of writes -/

section
variable {fnm : F} {as bs : List (F × List β)}

@[simp] theorem data_of_nil : data_of fnm ([] : List (F × List β)) = [] := rfl

theorem data_of_append : data_of fnm (as ++ bs) = data_of fnm as ++ data_of fnm bs := by
  simp [data_of]

theorem data_of_cons (c : F × List β) : data_of fnm (c :: as) = data_of fnm [c] ++ data_of fnm as :=
  show data_of fnm ([c] ++ as) = _ from data_of_append

/-- A write without data adds none. -/
theorem data_of_write (g : F) (buf : List β) :
    data_of fnm (if buf.isEmpty then [] else [(g, buf)]) = data_of fnm [(g, buf)] := by
  by_cases hbuf : buf.isEmpty <;> simp [data_of, hbuf]

theorem data_of_eq_nil : (∀ fnm, data_of fnm as = []) ↔ ∀ c ∈ as, c.2 = [] := by
  simp only [data_of, List.map_eq_nil_iff, List.filter_eq_nil_iff, Bool.and_eq_true,
    decide_eq_true_eq, Bool.not_eq_true', List.isEmpty_eq_false_iff, not_and, not_not]
  exact ⟨fun h c hc => h c.1 c hc rfl, fun h _ c hc _ => h c hc⟩

end

/-! ## One step -/

/-- What each step keeps. -/
structure Queued (w : threadedPoolFileWriter F β) : Prop where
  pooled : w.writer.Pooled
  ordered : ∀ fnm, data_of fnm w.writer.handed ++ data_of fnm w.task_queue_ =
    data_of fnm w.accepted
  stopped : w.worker_thread_ = .gone → w.stop_signal_ = true

variable {w w' : threadedPoolFileWriter F β}

theorem Queued.base (h : Queued w) {writer : poolFileWriter F β}
    (hw : writer.Pooled ∧ writer.handed = w.writer.handed) : Queued (w.base writer) := by
  refine ⟨hw.1, fun fnm => ?_, h.stopped⟩
  change data_of fnm writer.handed ++ _ = _
  rw [hw.2]
  exact h.ordered fnm

theorem Queued.write (h : Queued w) (fnm : F) (buf : List β) : Queued (w.write fnm buf) := by
  refine ⟨h.pooled, fun g => ?_, h.stopped⟩
  change data_of g w.writer.handed ++ data_of g (w.task_queue_ ++ [(fnm, buf)]) =
    data_of g (w.accepted ++ [(fnm, buf)])
  rw [data_of_append, data_of_append, ← List.append_assoc, h.ordered]

/-- The worker takes one write from the queue to its stream. -/
theorem Queued.take (h : Queued w) {fnm : F} {buf : List β} {rest : List (F × List β)}
    (hq : w.task_queue_ = (fnm, buf) :: rest) : Queued { w with
      writer := (w.writer.write fnm buf).2
      task_queue_ := rest
      worker_thread_ := .testing } := by
  refine ⟨poolFileWriter.write_pooled h.pooled fnm buf, fun g => ?_, nofun⟩
  have hordered := h.ordered g
  rw [hq, data_of_cons, ← List.append_assoc] at hordered
  rw [poolFileWriter.write_handed h.pooled, data_of_append, data_of_write]
  exact hordered

theorem worker_queued (h : Queued w) (hs : w.worker = some w') : Queued w' := by
  unfold threadedPoolFileWriter.worker at hs
  split at hs
  next =>
    cases hs
    refine ⟨h.pooled, h.ordered, fun hgone => ?_⟩
    by_contra hstop
    simp [hstop] at hgone
  next =>
    split at hs
    next =>
      cases hs
      exact ⟨h.pooled, h.ordered, nofun⟩
    next hq =>
      cases hs
      exact h.take hq
  next => cases hs

theorem step_queued {a : writer_event F β} (h : Queued w) (hs : writer_step w a = some w') :
    Queued w' := by
  cases a with
  | worker => exact worker_queued h hs
  | outside disk =>
    cases hs
    exact h.base ⟨⟨h.pooled.unchecked, h.pooled.named⟩, rfl⟩
  | write fnm buf =>
    simp only [writer_step] at hs
    split at hs <;> cases hs
    exact h.write fnm buf
  | flush fnm =>
    simp only [writer_step] at hs
    split at hs <;> cases hs
    rw [poolFileWriter.flush_eq h.pooled]
    exact h
  | close fnm =>
    simp only [writer_step] at hs
    split at hs <;> cases hs
    have hclose := poolFileWriter.close_spec h.pooled fnm
    exact h.base ⟨hclose.1, hclose.2.1⟩
  | open_ fnm =>
    simp only [writer_step] at hs
    split at hs <;> cases hs
    obtain ⟨o, hopened⟩ := poolFileWriter.open_spec h.pooled fnm
    exact h.base ⟨hopened.pooled, hopened.handed⟩
  | recreate fnm =>
    simp only [writer_step] at hs
    split at hs <;> cases hs
    exact h.base (poolFileWriter.recreate_pooled h.pooled fnm)
  | destroy =>
    simp only [writer_step] at hs
    split at hs <;> cases hs
    exact ⟨h.pooled, h.ordered, fun _ => rfl⟩

/-! ## A worker that goes on -/

/-- Without the signal, the worker empties the queue when it is left alone. -/
theorem worker_empties (hstop : w.stop_signal_ = false) (hw : w.worker_thread_ = .taking) :
    ∃ n w', exec writer_step w (List.replicate n .worker) = some w' ∧ w'.task_queue_ = [] ∧
      w'.accepted = w.accepted := by
  induction hq : w.task_queue_ generalizing w with
  | nil => exact ⟨0, w, rfl, hq, rfl⟩
  | cons c rest ih =>
    -- one step takes the write, the next one is back at the queue
    obtain ⟨fnm, buf⟩ := c
    let taken : threadedPoolFileWriter F β := { w with
      writer := (w.writer.write fnm buf).2
      task_queue_ := rest
      worker_thread_ := .testing }
    have htake : writer_step w .worker = some taken := by
      simp only [writer_step, threadedPoolFileWriter.worker, hw, hq, taken]
    have htest : writer_step taken .worker = some { taken with worker_thread_ := .taking } := by
      simp only [writer_step, threadedPoolFileWriter.worker, taken, hstop, Bool.false_eq_true,
        if_false]
    obtain ⟨n, w', hrun, hempty, haccepted⟩ :=
      ih (w := { taken with worker_thread_ := .taking }) hstop rfl rfl
    refine ⟨n + 2, w', ?_, hempty, haccepted⟩
    rw [List.replicate_succ, List.replicate_succ, exec_cons, htake, Option.bind_some, exec_cons,
      htest, Option.bind_some]
    exact hrun

theorem worker_drains (h : Queued w) (hstop : w.stop_signal_ = false) : ∃ n w',
    exec writer_step w (List.replicate n .worker) = some w' ∧
      ∀ fnm, data_of fnm w'.writer.handed = data_of fnm w.accepted := by
  have hrun : ∃ n w', exec writer_step w (List.replicate n .worker) = some w' ∧
      w'.task_queue_ = [] ∧ w'.accepted = w.accepted := by
    cases hw : w.worker_thread_ with
    | taking => exact worker_empties hstop hw
    | testing =>
      have htest : writer_step w .worker = some { w with worker_thread_ := .taking } := by
        simp only [writer_step, threadedPoolFileWriter.worker, hw, hstop, Bool.false_eq_true,
          if_false]
      obtain ⟨n, w', hrun, hend⟩ :=
        worker_empties (w := { w with worker_thread_ := .taking }) hstop rfl
      refine ⟨n + 1, w', ?_, hend⟩
      rw [List.replicate_succ, exec_cons, htest]
      exact hrun
    | gone =>
      rw [h.stopped hw] at hstop
      cases hstop
  obtain ⟨n, w', hrun, hempty, haccepted⟩ := hrun
  have hqueued : Queued w' :=
    always_exec (always_of_step (P := Queued) (fun _ _ _ hq hs => step_queued hq hs) h _) hrun
  refine ⟨n, w', hrun, fun fnm => ?_⟩
  have hordered := hqueued.ordered fnm
  rwa [hempty, data_of_nil, List.append_nil, haccepted] at hordered

/-! ## The end of the worker -/

/-- The worker is gone only when it left no data in the queue. -/
def Emptied (w : threadedPoolFileWriter F β) : Prop :=
  w.worker_thread_ = .gone → ∀ c ∈ w.task_queue_, c.2 = []

theorem delivered_iff (h : Queued w) : Delivered w ↔ Emptied w := by
  have hended : (∀ fnm, data_of fnm w.writer.handed = data_of fnm w.accepted) ↔
      ∀ c ∈ w.task_queue_, c.2 = [] := by
    rw [← data_of_eq_nil]
    refine forall_congr' fun fnm => ?_
    rw [← h.ordered fnm]
    exact List.self_eq_append_right
  constructor
  · exact fun hd hgone => hended.mp (hd.ended hgone)
  · exact fun he => ⟨h.ordered, worker_drains h, fun hgone => hended.mpr (he hgone)⟩

/-- A step ends the worker only at its test of the signal. -/
theorem step_emptied_iff {a : writer_event F β} (h : Queued w) (he : Emptied w)
    (hs : writer_step w a = some w') : Emptied w' ↔ NothingQueued w a := by
  have hcall : (w.stop_signal_ = false → w'.worker_thread_ = w.worker_thread_) →
      w.stop_signal_ = false → Emptied w' := by
    intro hsame hstop hgone
    rw [hsame hstop] at hgone
    rw [h.stopped hgone] at hstop
    cases hstop
  cases a with
  | worker =>
    simp only [writer_step, threadedPoolFileWriter.worker] at hs
    split at hs
    next htesting =>
      cases hs
      by_cases hstop : w.stop_signal_ = true
      · simp [Emptied, NothingQueued, htesting, hstop]
      · simp [Emptied, NothingQueued, hstop]
    next htaking =>
      have hright : NothingQueued w .worker := by
        intro htesting
        rw [htaking] at htesting
        cases htesting
      refine iff_of_true ?_ hright
      split at hs <;> (cases hs; exact nofun)
    next => cases hs
  | outside disk =>
    cases hs
    exact iff_of_true he trivial
  | _ =>
    simp only [writer_step] at hs
    split at hs
    · cases hs
    next hstop =>
      cases hs
      exact iff_of_true (hcall (fun _ => rfl) (Bool.not_eq_true _ ▸ hstop)) trivial

/-! ## Runs -/

/-- The data of each accepted write go to the streams of its file once and in order, to the end of
the writer, in a run in which the worker is not stopped with data in the queue, and in no other. -/
theorem accepted_writes_are_delivered (events : List (writer_event F β)) :
    Always writer_step Delivered {} events ↔ Meets writer_step NothingQueued {} events := by
  have hstart : Queued ({} : threadedPoolFileWriter F β) :=
    ⟨⟨rfl, nofun⟩, fun _ => rfl, nofun⟩
  exact always_iff_meets (P := fun w => Queued w ∧ Emptied w)
    (fun _ h => (delivered_iff h.1).mpr h.2)
    (fun _ _ _ h hc hs => ⟨step_queued h.1 hs, (step_emptied_iff h.1 h.2 hs).mpr hc⟩)
    (fun _ _ _ h hc hs hd => hc ((step_emptied_iff h.1 h.2 hs).mp
      ((delivered_iff (step_queued h.1 hs)).mp hd)))
    ⟨hstart, nofun⟩ events

/-- A write is accepted, and the writer is destroyed before the worker looks at the queue. -/
theorem the_last_write_is_lost :
    ¬ ∀ events : List (writer_event Nat UInt8), Always writer_step Delivered {} events := by
  intro hall
  have hrun : (exec (writer_step (F := Nat) (β := UInt8)) {}
      [.write 0 [1, 2, 3], .destroy, .worker]).map
      (fun w => (w.worker_thread_, data_of 0 w.writer.handed, data_of 0 w.accepted)) =
      some (.gone, [], [[1, 2, 3]]) := by decide
  obtain ⟨w, hw, hend⟩ := Option.map_eq_some_iff.mp hrun
  rw [Prod.mk.injEq, Prod.mk.injEq] at hend
  obtain ⟨hgone, hhanded, haccepted⟩ := hend
  have hended := (always_exec (hall _) hw).ended hgone 0
  rw [hhanded, haccepted] at hended
  cases hended

end socle.traflog
