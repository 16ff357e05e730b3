-- The queue of accepted sockets between acceptors and workers (fdq.cpp and
-- fdq.hpp): each socket that was pushed is popped once and in order, and a
-- hint byte tells a worker of it.
import Mathlib.Data.Int.Notation
import Mathlib.Algebra.BigOperators.Group.List.Basic
import Mathlib.Tactic.NormNum.Core
import Socle.Lib.Run

namespace socle.fdq

open lib.run

/-! ## The queue -/

/-- The pair of sockets of a worker and the load that it reported. `hints` are the bytes that were
written to its side and not read. -/
structure WorkerPipe where
  pipe : Int × Int := (-1, -1)
  seen_worker_load : UInt32 := 0
  hints : Nat := 0

def WorkerPipe.pipe_to_scheduler (w : WorkerPipe) : Int := w.pipe.1

def WorkerPipe.pipe_to_worker (w : WorkerPipe) : Int := w.pipe.2

/-- The workers by their ids, in order. -/
abbrev hint_map := List (Nat × WorkerPipe)

/-- `sq` is the queue, its front first. `feedback_queue_empty` is one flag for all queues. -/
structure FdQueue where
  sq : List Int := []
  hint_pairs : hint_map := []
  worker_id_max : Nat := 0
  feedback_queue_empty : Bool := false

namespace hint_map

def modify (id : Nat) (f : WorkerPipe → WorkerPipe) : hint_map → hint_map
  | [] => []
  | (key, pipes) :: rest =>
    if key = id then (key, f pipes) :: rest else (key, pipes) :: modify id f rest

/-- `operator[]` of the map, which makes an entry where there is none. -/
def emplace (id : Nat) : hint_map → hint_map
  | [] => [(id, {})]
  | (key, pipes) :: rest =>
    if id < key then (id, {}) :: (key, pipes) :: rest
    else if id = key then (key, pipes) :: rest
    else (key, pipes) :: emplace id rest

def hints (m : hint_map) : Nat := (m.map fun entry => entry.2.hints).sum

def keys (m : hint_map) : List Nat := m.map Prod.fst

end hint_map

/-! ## push_all -/

/-- The `multimap` of loads and workers, which keeps the order of equal loads. -/
def insert_candidate (candy : UInt32 × Nat) : List (UInt32 × Nat) → List (UInt32 × Nat)
  | [] => [candy]
  | other :: rest =>
    if candy.1 < other.1 then candy :: other :: rest else other :: insert_candidate candy rest

/-- Where a call of `push_all` is, after its socket is in the queue: at the workers that it has not
looked at, before a candidate, or after its `write`. `hinted` is set when a `write` succeeded. -/
inductive push
  | collect (rest : List Nat) (entry_count : Nat) (candidates : List (UInt32 × Nat))
  | summon (candidates : List (UInt32 × Nat)) (entry_count written_sum : Nat) (hinted : Bool)
  | feedback (candidates : List (UInt32 × Nat)) (entry_count written_sum : Nat) (hinted : Bool)

def push.hinted : push → Bool
  | .collect .. => false
  | .summon _ _ _ hinted => hinted
  | .feedback _ _ _ hinted => hinted

namespace FdQueue

/-- `new_pair`, with the pair that the system gave, or -1 twice. -/
def new_pair (id : Nat) (hint_pair : Int × Int) (q : FdQueue) : FdQueue :=
  { q with
    hint_pairs := (hint_map.emplace id q.hint_pairs).modify id fun _ => { pipe := hint_pair } }

/-- `create_workers`, for the pairs that the system gives. -/
def create_workers : List (Int × Int) → FdQueue → FdQueue
  | [], q => q
  | hint_pair :: rest, q =>
    create_workers rest
      (FdQueue.new_pair q.worker_id_max hint_pair { q with worker_id_max := q.worker_id_max + 1 })

/-- `write_to_socket` for the pipe of a worker. The system takes the byte or refuses it. -/
def write_to_socket (id : Nat) (wr : Bool) (q : FdQueue) : FdQueue × Nat :=
  match q.hint_pairs.lookup id with
  | some pipes =>
    if wr && 0 ≤ pipes.pipe_to_worker then
      ({ q with
        hint_pairs := q.hint_pairs.modify id fun pipes => { pipes with hints := pipes.hints + 1 } },
        1)
    else (q, 0)
  | none => (q, 0)

/-- The next step of a `push_all`, or the count that it returns. -/
def push_step (wr : Bool) (q : FdQueue) : push → FdQueue × (push ⊕ Nat)
  | .collect [] entry_count candidates => (q, .inl (.summon candidates entry_count 0 false))
  | .collect (key :: rest) entry_count candidates =>
    match q.hint_pairs.lookup key with
    | some pipes =>
      (q, .inl (.collect rest (entry_count + 1)
        (insert_candidate (pipes.seen_worker_load, key) candidates)))
    | none => (q, .inl (.collect rest entry_count candidates))
  | .summon [] entry_count _ _ => (q, .inr entry_count)
  | .summon (candy :: rest) entry_count written_sum hinted =>
    let written_sum := written_sum + 1
    if written_sum > entry_count / 2 then (q, .inr entry_count)
    else
      let (q, written) := q.write_to_socket candy.2 wr
      (q, .inl (.feedback rest entry_count (written_sum + written) (hinted || written == 1)))
  | .feedback rest entry_count written_sum hinted =>
    if q.feedback_queue_empty then ({ q with feedback_queue_empty := false }, .inr entry_count)
    else (q, .inl (.summon rest entry_count written_sum hinted))

/-! ## pop -/

/-- The first half of `pop`, which reads the hint byte. -/
def read_hint (worker_id : Nat) (q : FdQueue) : FdQueue :=
  { q with
    hint_pairs := (hint_map.emplace worker_id q.hint_pairs).modify worker_id fun pipes =>
      if 0 ≤ pipes.pipe_to_scheduler then { pipes with hints := pipes.hints - 1 } else pipes }

/-- The second half of `pop`, under the lock. -/
def pop_socket (q : FdQueue) : Int × FdQueue :=
  match q.sq.getLast? with
  | none => (0, { q with feedback_queue_empty := true })
  | some returned_socket =>
    let sq := q.sq.dropLast
    (returned_socket, { q with
      sq := sq
      feedback_queue_empty := q.feedback_queue_empty || sq.isEmpty })

def pop_if (check_true : UInt32 → Bool) (q : FdQueue) : Option Int × FdQueue :=
  match q.sq.getLast? with
  | none => (none, q)
  | some val =>
    if check_true (UInt32.ofInt val) then (some val, { q with sq := q.sq.dropLast }) else (none, q)

def update_load (worker_id : Nat) (load : UInt32) (q : FdQueue) : FdQueue :=
  { q with
    hint_pairs := q.hint_pairs.modify worker_id fun pipes => { pipes with seen_worker_load := load } }

end FdQueue

/-! ## Runs -/

/-- A queue with the calls of `push_all` and `pop` that are under way, what was pushed and what was
popped. A worker in `popping` has read its hint and pops next. -/
structure Delivery where
  fdqueue : FdQueue
  pushing : List push := []
  popping : List Nat := []
  pushed : List Int := []
  popped : List Int := []

/-- The steps of `push_all` and `pop` of any threads. `feedback` is the flag set for another queue. -/
inductive operation
  | push_all (s : Int)
  | push_step (call : Nat) (wr : Bool)
  | pop (worker_id : Nat)
  | pop_socket (worker_id : Nat)
  | pop_if (check_true : UInt32 → Bool)
  | update_load (worker_id : Nat) (load : UInt32)
  | feedback (queue_empty : Bool)

def step (c : Delivery) : operation → Option Delivery
  | .push_all s =>
    some { c with
      fdqueue := { c.fdqueue with sq := s :: c.fdqueue.sq }
      pushing := c.pushing ++ [.collect (hint_map.keys c.fdqueue.hint_pairs) 0 []]
      pushed := c.pushed ++ [s] }
  | .push_step call wr =>
    (c.pushing[call]?).map fun p =>
      match c.fdqueue.push_step wr p with
      | (q, .inl p) => { c with fdqueue := q, pushing := c.pushing.set call p }
      | (q, .inr _) => { c with fdqueue := q, pushing := c.pushing.eraseIdx call }
  | .pop worker_id =>
    some { c with fdqueue := c.fdqueue.read_hint worker_id, popping := worker_id :: c.popping }
  | .pop_socket worker_id =>
    if worker_id ∈ c.popping then
      let (returned_socket, q) := c.fdqueue.pop_socket
      some { c with
        fdqueue := q
        popping := c.popping.erase worker_id
        popped := if c.fdqueue.sq.isEmpty then c.popped else c.popped ++ [returned_socket] }
    else none
  | .pop_if check_true =>
    let (val, q) := c.fdqueue.pop_if check_true
    some { c with fdqueue := q, popped := c.popped ++ val.toList }
  | .update_load worker_id load => some { c with fdqueue := c.fdqueue.update_load worker_id load }
  | .feedback queue_empty =>
    some { c with fdqueue := { c.fdqueue with feedback_queue_empty := queue_empty } }

/-- As many workers as there are pairs. -/
def start (pairs : List (Int × Int)) : Delivery where
  fdqueue := FdQueue.create_workers pairs {}

/-! ## The law -/

/-- What is popped was pushed, in order. While there is something in the queue and no `push_all` is
under way, there is a hint for a worker or a worker that pops. The workers are the registered ones. -/
structure Delivered (workers : List Nat) (c : Delivery) : Prop where
  fifo : c.pushed = c.popped ++ c.fdqueue.sq.reverse
  hinted : c.fdqueue.sq ≠ [] → c.pushing = [] →
    (∃ entry ∈ c.fdqueue.hint_pairs, 0 < entry.2.hints) ∨ c.popping ≠ []
  registered : hint_map.keys c.fdqueue.hint_pairs = workers

/-- `push_all` leaves its loop in this step. -/
def push.Leaves (q : FdQueue) : push → Prop
  | .collect .. => False
  | .summon candidates entry_count written_sum _ =>
    candidates = [] ∨ written_sum + 1 > entry_count / 2
  | .feedback .. => q.feedback_queue_empty = true

instance (q : FdQueue) : (p : push) → Decidable (p.Leaves q)
  | .collect .. => isFalse id
  | .summon candidates entry_count written_sum _ =>
    inferInstanceAs (Decidable (candidates = [] ∨ written_sum + 1 > entry_count / 2))
  | .feedback .. => inferInstanceAs (Decidable (q.feedback_queue_empty = true))

/-- A `push_all` leaves its loop after a `write` that succeeded, and registered workers pop. -/
def Hinted (c : Delivery) : operation → Prop
  | .push_step call _ => ∀ p ∈ c.pushing[call]?, p.Leaves c.fdqueue → p.hinted = true
  | .pop worker_id => worker_id ∈ hint_map.keys c.fdqueue.hint_pairs
  | _ => True

instance (c : Delivery) : (o : operation) → Decidable (Hinted c o)
  | .push_step call _ =>
    inferInstanceAs (Decidable (∀ p ∈ c.pushing[call]?, p.Leaves c.fdqueue → p.hinted = true))
  | .pop worker_id => inferInstanceAs (Decidable (worker_id ∈ hint_map.keys c.fdqueue.hint_pairs))
  | .push_all _ | .pop_socket _ | .pop_if _ | .update_load _ _ | .feedback _ => isTrue trivial

/-! ## The hints -/

namespace hint_map

variable {m : hint_map} {id : Nat} {f : WorkerPipe → WorkerPipe}

@[simp] theorem keys_modify : keys (modify id f m) = keys m := by
  induction m with
  | nil => rfl
  | cons entry rest ih =>
    obtain ⟨key, pipes⟩ := entry
    simp only [modify]
    split
    · rfl
    · exact congrArg (key :: ·) ih

theorem lookup_isSome : (m.lookup id).isSome ↔ id ∈ keys m := by
  induction m with
  | nil => exact iff_of_false (by simp) List.not_mem_nil
  | cons entry rest ih =>
    obtain ⟨key, pipes⟩ := entry
    rw [List.lookup_cons]
    by_cases hkey : id = key
    · simp [hkey, keys]
    · rw [beq_eq_false_iff_ne.mpr hkey]
      simp [keys, hkey, ih]

/-- A change of one worker changes the hints by as many. -/
theorem hints_modify {pipes : WorkerPipe} (h : m.lookup id = some pipes) :
    hints (modify id f m) + pipes.hints = hints m + (f pipes).hints := by
  induction m with
  | nil => cases h
  | cons entry rest ih =>
    obtain ⟨key, old⟩ := entry
    rw [List.lookup_cons] at h
    by_cases hkey : id = key
    · rw [beq_iff_eq.mpr hkey] at h
      cases h
      simp only [modify, hkey, if_true, hints, List.map_cons, List.sum_cons]
      omega
    · rw [beq_eq_false_iff_ne.mpr hkey] at h
      have hrest := ih h
      simp only [modify, Ne.symm hkey, if_false, hints, List.map_cons, List.sum_cons] at hrest ⊢
      omega

theorem hints_modify_eq (h : ∀ pipes, (f pipes).hints = pipes.hints) :
    hints (modify id f m) = hints m := by
  induction m with
  | nil => rfl
  | cons entry rest ih =>
    obtain ⟨key, pipes⟩ := entry
    simp only [modify]
    split
    · simp only [hints, List.map_cons, List.sum_cons, h]
    · simpa only [hints, List.map_cons, List.sum_cons, Nat.add_left_cancel_iff] using ih

theorem exists_hint (h : 0 < hints m) : ∃ entry ∈ m, 0 < entry.2.hints := by
  induction m with
  | nil => exact absurd h (Nat.lt_irrefl 0)
  | cons entry rest ih =>
    simp only [hints, List.map_cons, List.sum_cons] at h ih
    by_cases hentry : 0 < entry.2.hints
    · exact ⟨entry, List.mem_cons_self, hentry⟩
    · obtain ⟨other, hmem, hpos⟩ := ih (by omega)
      exact ⟨other, List.mem_cons_of_mem _ hmem, hpos⟩

end hint_map

namespace hint_map

variable {m : hint_map} {id : Nat}

theorem emplace_of_mem (hsorted : (keys m).Pairwise (· < ·)) (h : id ∈ keys m) :
    emplace id m = m := by
  induction m with
  | nil => exact absurd h List.not_mem_nil
  | cons entry rest ih =>
    obtain ⟨key, pipes⟩ := entry
    simp only [keys, List.map_cons, List.pairwise_cons, List.mem_cons] at hsorted h ih
    unfold emplace
    rcases h with rfl | h
    · rw [if_neg (Nat.lt_irrefl _), if_pos rfl]
    · have hlt := hsorted.1 id h
      rw [if_neg (by omega), if_neg (by omega), ih hsorted.2 h]

theorem keys_emplace_of_lt (h : ∀ key ∈ keys m, key < id) : keys (emplace id m) = keys m ++ [id] := by
  induction m with
  | nil => rfl
  | cons entry rest ih =>
    obtain ⟨key, pipes⟩ := entry
    simp only [keys, List.map_cons, List.mem_cons, forall_eq_or_imp] at h ih
    unfold emplace
    rw [if_neg (by omega), if_neg (by omega)]
    simp only [keys, List.map_cons, List.cons_append, ih h.2]

end hint_map

theorem keys_create_workers (pairs : List (Int × Int)) {q : FdQueue}
    (h : hint_map.keys q.hint_pairs = List.range q.worker_id_max) :
    hint_map.keys (FdQueue.create_workers pairs q).hint_pairs =
      List.range (q.worker_id_max + pairs.length) := by
  induction pairs generalizing q with
  | nil => exact h
  | cons hint_pair rest ih =>
    unfold FdQueue.create_workers
    rw [ih]
    · simp only [FdQueue.new_pair, List.length_cons]
      congr 1
      omega
    · simp only [FdQueue.new_pair, hint_map.keys_modify, List.range_succ]
      rw [hint_map.keys_emplace_of_lt, h]
      intro key hkey
      rw [h] at hkey
      exact List.mem_range.mp hkey

theorem create_workers_sq (pairs : List (Int × Int)) {q : FdQueue} :
    (FdQueue.create_workers pairs q).sq = q.sq := by
  induction pairs generalizing q with
  | nil => rfl
  | cons hint_pair rest ih =>
    unfold FdQueue.create_workers
    rw [ih]
    rfl

/-! ## One step -/

/-- A `push_all` that has not written a hint. -/
def push.waiting (p : push) : Nat := if p.hinted then 0 else 1

theorem push.waiting_le (p : push) : p.waiting ≤ 1 := by
  unfold push.waiting
  split <;> decide

def waiting (pushing : List push) : Nat := (pushing.map push.waiting).sum

theorem waiting_set {pushing : List push} {call : Nat} {p : push} (p' : push)
    (h : pushing[call]? = some p) :
    waiting (pushing.set call p') + p.waiting = waiting pushing + p'.waiting := by
  induction pushing generalizing call with
  | nil => cases h
  | cons other rest ih =>
    cases call with
    | zero =>
      cases h
      simp only [waiting, List.set_cons_zero, List.map_cons, List.sum_cons]
      omega
    | succ call =>
      have hrest := ih h
      simp only [waiting, List.set_cons_succ, List.map_cons, List.sum_cons] at hrest ⊢
      omega

theorem waiting_eraseIdx {pushing : List push} {call : Nat} {p : push}
    (h : pushing[call]? = some p) :
    waiting (pushing.eraseIdx call) + p.waiting = waiting pushing := by
  induction pushing generalizing call with
  | nil => cases h
  | cons other rest ih =>
    cases call with
    | zero =>
      cases h
      simp only [waiting, List.eraseIdx_cons_zero, List.map_cons, List.sum_cons]
      omega
    | succ call =>
      have hrest := ih h
      simp only [waiting, List.eraseIdx_cons_succ, List.map_cons, List.sum_cons] at hrest ⊢
      omega

namespace FdQueue

variable {q q' : FdQueue}

theorem write_to_socket_cases (id : Nat) (wr : Bool) (q : FdQueue) :
    q.write_to_socket id wr = (q, 0) ∨
      ∃ pipes, q.hint_pairs.lookup id = some pipes ∧ q.write_to_socket id wr =
        ({ q with
          hint_pairs := q.hint_pairs.modify id fun pipes => { pipes with hints := pipes.hints + 1 } },
          1) := by
  unfold write_to_socket
  split
  next pipes hpipes =>
    split
    · exact Or.inr ⟨pipes, hpipes, rfl⟩
    · exact Or.inl rfl
  next => exact Or.inl rfl

/-- `push_all` leaves the queue and the workers as they are. It leaves its loop, or goes on, and then
there is a hint for it or it waits still. -/
theorem push_step_spec {wr : Bool} {p : push} {res : push ⊕ Nat} (h : q.push_step wr p = (q', res)) :
    q'.sq = q.sq ∧ hint_map.keys q'.hint_pairs = hint_map.keys q.hint_pairs ∧
      ((∃ entry_count, res = .inr entry_count ∧ p.Leaves q ∧
          hint_map.hints q'.hint_pairs = hint_map.hints q.hint_pairs) ∨
        ∃ p', res = .inl p' ∧
          hint_map.hints q.hint_pairs + p.waiting ≤ hint_map.hints q'.hint_pairs + p'.waiting) := by
  unfold push_step at h
  split at h
  next => cases h; exact ⟨rfl, rfl, Or.inr ⟨_, rfl, Nat.le_refl _⟩⟩
  next =>
    split at h
    next => cases h; exact ⟨rfl, rfl, Or.inr ⟨_, rfl, Nat.le_refl _⟩⟩
    next => cases h; exact ⟨rfl, rfl, Or.inr ⟨_, rfl, Nat.le_refl _⟩⟩
  next => cases h; exact ⟨rfl, rfl, Or.inl ⟨_, rfl, Or.inl rfl, rfl⟩⟩
  next candy rest entry_count written_sum hinted =>
    simp only at h
    split at h
    next hleave => cases h; exact ⟨rfl, rfl, Or.inl ⟨_, rfl, Or.inr hleave, rfl⟩⟩
    next =>
      rcases write_to_socket_cases candy.2 wr q with hwrite | ⟨pipes, hpipes, hwrite⟩ <;>
        rw [hwrite] at h <;> cases h
      · refine ⟨rfl, rfl, Or.inr ⟨_, rfl, ?_⟩⟩
        cases hinted <;> exact Nat.le_refl _
      · refine ⟨rfl, hint_map.keys_modify, Or.inr ⟨_, rfl, ?_⟩⟩
        have hmore := hint_map.hints_modify (f := fun pipes => { pipes with hints := pipes.hints + 1 })
          hpipes
        have hwaits : (push.summon (candy :: rest) entry_count written_sum hinted).waiting ≤ 1 :=
          push.waiting_le _
        simp only at hmore ⊢
        omega
  next =>
    split at h
    next hflag => cases h; exact ⟨rfl, rfl, Or.inl ⟨_, rfl, hflag, rfl⟩⟩
    next => cases h; exact ⟨rfl, rfl, Or.inr ⟨_, rfl, Nat.le_refl _⟩⟩

/-- A registered worker reads one hint or none. -/
theorem read_hint_spec {worker_id : Nat}
    (hsorted : (hint_map.keys q.hint_pairs).Pairwise (· < ·))
    (h : worker_id ∈ hint_map.keys q.hint_pairs) :
    hint_map.keys (q.read_hint worker_id).hint_pairs = hint_map.keys q.hint_pairs ∧
      hint_map.hints q.hint_pairs ≤ hint_map.hints (q.read_hint worker_id).hint_pairs + 1 := by
  simp only [read_hint, hint_map.emplace_of_mem hsorted h]
  refine ⟨hint_map.keys_modify, ?_⟩
  obtain ⟨pipes, hpipes⟩ := Option.isSome_iff_exists.mp (hint_map.lookup_isSome.mpr h)
  have hless := hint_map.hints_modify (f := fun pipes =>
    if 0 ≤ pipes.pipe_to_scheduler then { pipes with hints := pipes.hints - 1 } else pipes) hpipes
  split at hless
  · simp only at hless
    omega
  · omega

/-- The oldest socket is taken out of the queue. -/
theorem pop_socket_cases (q : FdQueue) :
    (q.sq = [] ∧ q.pop_socket = (0, { q with feedback_queue_empty := true })) ∨
      ∃ sq s, q.sq = sq ++ [s] ∧ (q.pop_socket).1 = s ∧ (q.pop_socket).2.sq = sq ∧
        (q.pop_socket).2.hint_pairs = q.hint_pairs := by
  unfold pop_socket
  split
  next hnone => exact Or.inl ⟨List.getLast?_eq_none_iff.mp hnone, rfl⟩
  next s hs =>
    obtain ⟨sq, hsq⟩ := List.getLast?_eq_some_iff.mp hs
    exact Or.inr ⟨sq, s, hsq, rfl, by rw [hsq, List.dropLast_concat], rfl⟩

theorem pop_if_cases (check_true : UInt32 → Bool) (q : FdQueue) :
    q.pop_if check_true = (none, q) ∨
      ∃ sq s, q.sq = sq ++ [s] ∧ q.pop_if check_true = (some s, { q with sq := sq }) := by
  unfold pop_if
  split
  next => exact Or.inl rfl
  next s hs =>
    split
    next =>
      obtain ⟨sq, hsq⟩ := List.getLast?_eq_some_iff.mp hs
      exact Or.inr ⟨sq, s, hsq, by rw [hsq, List.dropLast_concat]⟩
    next => exact Or.inl rfl

end FdQueue

/-! ## Each run -/

/-- The invariant: a queued socket has a hint that is not read, a worker that pops, or a `push_all`
that has not written its hint. -/
structure Sound (workers : Nat) (c : Delivery) : Prop where
  fifo : c.pushed = c.popped ++ c.fdqueue.sq.reverse
  enough : c.fdqueue.sq.length ≤
    hint_map.hints c.fdqueue.hint_pairs + c.popping.length + waiting c.pushing
  registered : hint_map.keys c.fdqueue.hint_pairs = List.range workers

theorem sound_start (pairs : List (Int × Int)) : Sound pairs.length (start pairs) where
  fifo := by
    simp only [start, create_workers_sq]
    rfl
  enough := by
    simp only [start, create_workers_sq, List.length_nil, Nat.zero_le]
  registered := by
    rw [start, keys_create_workers pairs rfl]
    exact congrArg List.range (Nat.zero_add _)

theorem Sound.delivered {workers : Nat} {c : Delivery} (h : Sound workers c) :
    Delivered (List.range workers) c where
  fifo := h.fifo
  hinted := by
    intro hqueued hpushing
    have hlength := List.length_pos_iff.mpr hqueued
    have henough := h.enough
    rw [hpushing] at henough
    by_cases hpopping : c.popping = []
    · rw [hpopping] at henough
      simp only [waiting, List.map_nil, List.sum_nil, List.length_nil] at henough
      exact Or.inl (hint_map.exists_hint (by omega))
    · exact Or.inr hpopping
  registered := h.registered

theorem step_sound {workers : Nat} {c c' : Delivery} {o : operation} (h : Sound workers c)
    (hinted : Hinted c o) (hs : step c o = some c') : Sound workers c' := by
  have henough := h.enough
  cases o with
  | push_all s =>
    cases hs
    refine ⟨?_, ?_, h.registered⟩
    · simp only [h.fifo, List.reverse_cons, List.append_assoc]
    · simp only [waiting, List.map_append, List.sum_append, List.length_cons] at henough ⊢
      simp only [List.map_cons, List.map_nil, List.sum_singleton, push.waiting, push.hinted] at henough ⊢
      simp only [Bool.false_eq_true, if_false]
      omega
  | push_step call wr =>
    simp only [step, Option.map_eq_some_iff] at hs
    obtain ⟨p, hp, hs⟩ := hs
    rcases hstep : c.fdqueue.push_step wr p with ⟨q', res⟩
    obtain ⟨hsq, hkeys, ⟨entry_count, rfl, hleaves, hhints⟩ | ⟨p', rfl, hhints⟩⟩ :=
      FdQueue.push_step_spec hstep <;> rw [hstep] at hs <;> cases hs
    · refine ⟨by rw [hsq]; exact h.fifo, ?_, hkeys.trans h.registered⟩
      -- it has written its hint
      have hwritten : p.waiting = 0 := if_pos (hinted p hp hleaves)
      have herase := waiting_eraseIdx hp
      simp only [hsq, hhints]
      omega
    · refine ⟨by rw [hsq]; exact h.fifo, ?_, hkeys.trans h.registered⟩
      have hset := waiting_set p' hp
      simp only [hsq]
      omega
  | pop worker_id =>
    cases hs
    have hsorted : (hint_map.keys c.fdqueue.hint_pairs).Pairwise (· < ·) := by
      rw [h.registered]
      exact List.pairwise_lt_range
    obtain ⟨hkeys, hhints⟩ := FdQueue.read_hint_spec hsorted hinted
    refine ⟨h.fifo, ?_, hkeys.trans h.registered⟩
    simp only [List.length_cons]
    have hsq : (c.fdqueue.read_hint worker_id).sq = c.fdqueue.sq := rfl
    rw [hsq]
    omega
  | pop_socket worker_id =>
    simp only [step] at hs
    split at hs
    next hpops =>
      cases hs
      have hlength := List.length_erase_of_mem hpops
      have hpos := List.length_pos_of_mem hpops
      rcases FdQueue.pop_socket_cases c.fdqueue with ⟨hnil, hpop⟩ | ⟨sq, s, hsq, hs, hsq', hpairs⟩
      · refine ⟨?_, ?_, ?_⟩
        · simp only [hpop, hnil, List.isEmpty_nil, if_true]
          rw [h.fifo, hnil]
        · simp only [hpop, hnil, List.length_nil, Nat.zero_le]
        · rw [hpop]
          exact h.registered
      · have hne : c.fdqueue.sq.isEmpty = false := by rw [hsq]; simp
        rw [hsq, List.length_append, List.length_singleton] at henough
        refine ⟨?_, ?_, ?_⟩
        · simp only [hne, Bool.false_eq_true, if_false, hs, hsq']
          rw [h.fifo, hsq, List.reverse_append, List.append_assoc]
          rfl
        · simp only [hsq', hpairs, hlength]
          omega
        · rw [hpairs]
          exact h.registered
    next => cases hs
  | pop_if check_true =>
    simp only [step] at hs
    rcases FdQueue.pop_if_cases check_true c.fdqueue with hpop | ⟨sq, s, hsq, hpop⟩ <;>
      rw [hpop] at hs <;> cases hs
    · simp only [Option.toList_none, List.append_nil]
      exact ⟨h.fifo, h.enough, h.registered⟩
    · rw [hsq, List.length_append, List.length_singleton] at henough
      simp only [Option.toList_some]
      refine ⟨?_, ?_, h.registered⟩
      · rw [h.fifo, hsq, List.reverse_append, List.append_assoc]
        rfl
      · simp only
        omega
  | update_load worker_id load =>
    cases hs
    refine ⟨h.fifo, ?_, hint_map.keys_modify.trans h.registered⟩
    have hsame : hint_map.hints (c.fdqueue.update_load worker_id load).hint_pairs =
        hint_map.hints c.fdqueue.hint_pairs := hint_map.hints_modify_eq fun _ => rfl
    rw [hsame]
    exact henough
  | feedback queue_empty =>
    cases hs
    exact ⟨h.fifo, henough, h.registered⟩

/-- While each `push_all` writes a hint before it leaves its loop, and registered workers pop, sockets
are delivered. -/
theorem sockets_are_delivered (pairs : List (Int × Int)) (ops : List operation)
    (h : Meets step Hinted (start pairs) ops) :
    Always step (Delivered (List.range pairs.length)) (start pairs) ops :=
  (always_of_meets (fun _ _ _ => step_sound) (sound_start pairs) h).mono fun _ => Sound.delivered

def two_workers : List (Int × Int) := [(3, 4), (5, 6)]

/-- Two sockets are pushed by two threads at once, their hints go to the first worker, and both
workers pop. -/
def two_deliveries : List operation :=
  [.push_all 9, .push_step 0 true, .push_all 12, .push_step 0 true, .push_step 1 true,
    .push_step 0 true, .push_step 1 true, .push_step 0 true, .push_step 1 true, .push_step 1 true,
    .push_step 0 true, .push_step 0 true, .pop 0, .pop 1, .pop_socket 1, .push_step 0 true,
    .pop_socket 0]

theorem two_deliveries_hinted : Meets step Hinted (start two_workers) two_deliveries := by
  decide

/-- The first in is the first out. -/
theorem two_deliveries_are_delivered :
    Always step (Delivered (List.range two_workers.length)) (start two_workers) two_deliveries ∧
      (exec step (start two_workers) two_deliveries).map Delivery.popped = some [9, 12] :=
  ⟨sockets_are_delivered two_workers two_deliveries two_deliveries_hinted, by decide⟩

/-- A single worker gets no hint. -/
theorem a_single_worker_is_not_hinted :
    ¬ ∀ (pairs : List (Int × Int)) (ops : List operation),
      Always step (Delivered (List.range pairs.length)) (start pairs) ops := by
  intro hall
  have hrun := always_exec (hall [(3, 4)]
    [.push_all 9, .push_step 0 true, .push_step 0 true, .push_step 0 true]) rfl
  rcases hrun.hinted (List.cons_ne_nil _ _) rfl with ⟨entry, hentry, hhint⟩ | hpopping
  · rw [List.mem_singleton.mp hentry] at hhint
    exact absurd hhint (Nat.lt_irrefl 0)
  · exact hpopping rfl

end socle.fdq
