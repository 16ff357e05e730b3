-- The rate meter (sobject.hpp, sobject.cpp). It counts the bytes of the interval
-- that runs and keeps the counts of the last four that are over. An interval
-- begins with the update that ends the one before it.
import Mathlib.Algebra.BigOperators.Group.List.Basic
import Mathlib.Logic.Function.Iterate
import Mathlib.Tactic
import Socle.Lib.Run

namespace socle

open lib.run

/-! ## The meter -/

/-- `meter`. Times are in nanoseconds. -/
structure meter where
  total_ : UInt64 := 0
  prev_counter_ : UInt64 := 0
  curr_counter_ : UInt64 := 0
  scoreboard : Fin 3 → UInt64 := fun _ => 0
  last_update : ℕ
  interval_ : UInt32 := 1
  cnt_updates : UInt32 := 0

namespace meter

def scoreboard_sz : ℕ := 3

def seconds (n : UInt32) : ℕ := 1000000000 * n.toNat

def push_score (m : meter) (val : UInt64) : meter :=
  let shift := fun (board : Fin 3 → UInt64) (i : Fin 3) => Function.update board i (board (i - 1))
  { m with scoreboard := Function.update ([2, 1].foldl shift m.scoreboard) 0 val }

/-- The loop of `sum_score` over the indices that are left. -/
def sum_from (m : meter) : List (Fin 3) → UInt32 → UInt64 → UInt64
  | [], _, ret => ret
  | i :: rest, cur_it, ret =>
    -- dont count starting-zero values
    if cur_it + 1 > m.cnt_updates then ret
    else m.sum_from rest (cur_it + 1) (ret + m.scoreboard i)

def sum_score (m : meter) : UInt64 :=
  m.sum_from [2, 1, 0] 0 0

/-- The zeros for the intervals that were missed. -/
def push_missed (m : meter) (now : ℕ) : meter :=
  if now - m.last_update ≥ seconds (2 * m.interval_) then
    let missed_scores := (now - m.last_update) / seconds m.interval_ - 1
    (fun m => m.push_score 0)^[min missed_scores scoreboard_sz] m
  else m

/-- The first lines of `update`. -/
def add_total (m : meter) (val : UInt64) : meter :=
  { m with total_ := m.total_ + val, cnt_updates := m.cnt_updates + 1 }

/-- The branch of `update` that ends an interval. -/
def roll (m : meter) (now : ℕ) (val : UInt64) : meter :=
  let m := { m.push_missed now with last_update := now }
  let m := m.push_score m.prev_counter_
  { m with prev_counter_ := m.curr_counter_, curr_counter_ := val }

/-- `update`, which returns the previous counter. `none` is the division by an interval of 0. -/
def update (m : meter) (now : ℕ) (val : UInt64) : Option (UInt64 × meter) :=
  let m := m.add_total val
  if now - m.last_update ≥ seconds m.interval_ then
    if m.interval_ = 0 then none
    else some ((m.roll now val).prev_counter_, m.roll now val)
  else some (m.prev_counter_, { m with curr_counter_ := m.curr_counter_ + val })

def get (m : meter) (now : ℕ) : UInt64 :=
  -- not updated for a while
  if now > m.last_update + (1 + scoreboard_sz) * seconds m.interval_ then 0
  else
    let divisor := if m.cnt_updates < 4 then m.cnt_updates.toUInt64 * m.interval_.toUInt64
      else 4 * m.interval_.toUInt64
    (m.prev_counter_ + m.sum_score) / (if divisor = 0 then 1 else divisor)

def total (m : meter) : UInt64 := m.total_

/-! ## The intervals -/

/-- The bytes of some updates. -/
def bytes (values : List UInt64) : ℕ := (values.map UInt64.toNat).sum

/-- A meter, the values of its updates, and to which intervals they belong: the one that runs, and
those that are over, with the newest first. -/
structure Usage where
  mtr : meter
  undefined : Bool := false
  clock : ℕ
  values : List UInt64 := []
  current : List UInt64 := []
  completed : List (List UInt64) := []

/-- How many intervals are over when the time is `now`, the one that runs included. -/
def elapsed (m : meter) (now : ℕ) : ℕ := (now - m.last_update) / seconds m.interval_

/-- An update that ends intervals: there is one with values, and the ones missed have none. -/
def Usage.put (u : Usage) (now : ℕ) (val : UInt64) : Usage :=
  match u.mtr.elapsed now with
  | 0 => { u with clock := now, values := u.values ++ [val], current := u.current ++ [val] }
  | missed + 1 =>
    { u with
      clock := now
      values := u.values ++ [val]
      current := [val]
      completed := List.replicate missed [] ++ u.current :: u.completed }

/-- `update` with `val` at the time `now`. The clock does not go back. -/
def step (u : Usage) (call : ℕ × UInt64) : Option Usage :=
  if call.1 < u.clock then none
  else
    match u.mtr.update call.1 call.2 with
    | none => some { u with undefined := true }
    | some (_, m) => some { u.put call.1 call.2 with mtr := m }

/-- The counts of the last four intervals that are over. -/
def window (completed : List (List UInt64)) : List ℕ :=
  (completed.map bytes ++ List.replicate 4 0).take 4

/-- `scoreboard`. -/
def board (m : meter) : List ℕ :=
  [(m.scoreboard 0).toNat, (m.scoreboard 1).toNat, (m.scoreboard 2).toNat]

/-- `prev_counter_` and the board. -/
def counts (m : meter) : List ℕ := m.prev_counter_.toNat :: m.board

/-- What the books of a meter are to say. -/
structure Counted (u : Usage) : Prop where
  defined : u.undefined = false
  total : u.mtr.total.toNat = bytes u.values
  split : (u.current :: u.completed).reverse.flatten = u.values
  current : u.mtr.curr_counter_.toNat = bytes u.current
  counts : u.mtr.counts = window u.completed
  rate : ∀ now, (u.mtr.get now).toNat ≤ (window u.completed).sum / u.mtr.interval_.toNat

/-- The counts when the time is `now` and no interval was missed. -/
def counts_at (m : meter) (now : ℕ) : List ℕ :=
  match m.elapsed now with
  | 0 => m.counts
  | _ + 1 => m.curr_counter_.toNat :: m.counts.take 3

/-- When an update keeps the books. The total has room; no interval was missed, or there is nothing
in the counters; and where the number of updates is 0 again, the newest interval is not above the
average, since nothing is divided then. -/
structure Keeps (u : Usage) (call : ℕ × UInt64) : Prop where
  interval : u.mtr.interval_ ≠ 0
  room : u.mtr.total_.toNat + call.2.toNat < 2 ^ 64
  missed : 2 ≤ u.mtr.elapsed call.1 → u.mtr.curr_counter_ = 0 ∧ u.mtr.prev_counter_ = 0
  wrapped : u.mtr.cnt_updates + 1 = 0 →
    (u.mtr.counts_at call.1).headI * u.mtr.interval_.toNat ≤ (u.mtr.counts_at call.1).sum

/-! ## The board -/

theorem board_push_score (m : meter) (val : UInt64) :
    (m.push_score val).board = val.toNat :: m.board.take 2 := by
  simp [board, push_score, Function.update]

/-- Only the board is pushed. -/
theorem push_zeros_fields (k : ℕ) (m : meter) :
    ∃ board, (fun m => push_score m 0)^[k] m = { m with scoreboard := board } := by
  induction k with
  | zero => exact ⟨m.scoreboard, rfl⟩
  | succ k ih =>
    obtain ⟨b, hb⟩ := ih
    rw [Function.iterate_succ_apply', hb]
    exact ⟨_, rfl⟩

theorem board_push_zeros (k : ℕ) (m : meter) :
    ((fun m => push_score m 0)^[k] m).board = (List.replicate k 0 ++ m.board).take 3 := by
  induction k with
  | zero => rfl
  | succ k ih =>
    rw [Function.iterate_succ_apply', board_push_score, ih, List.take_take, List.replicate_succ]
    rfl

/-! ## One update -/

section
variable {m : meter} {now : ℕ} {val : UInt64}

theorem toNat_pos {n : UInt32} (h : n ≠ 0) : 0 < n.toNat := by
  rw [Nat.pos_iff_ne_zero]
  intro hz
  exact h (UInt32.toNat_inj.mp hz)

theorem seconds_pos (h : m.interval_ ≠ 0) : 0 < seconds m.interval_ := by
  have hpos := toNat_pos h
  unfold seconds
  omega

theorem elapsed_eq_zero (h : m.interval_ ≠ 0) :
    m.elapsed now = 0 ↔ now - m.last_update < seconds m.interval_ := by
  unfold elapsed
  rw [Nat.div_eq_zero_iff_lt (seconds_pos h)]

/-- What was missed is pushed: as many zeros as intervals were missed, up to three. -/
theorem push_missed_eq (h : m.interval_ ≠ 0) {k : ℕ} (hk : m.elapsed now = k + 1) :
    m.push_missed now = (fun m => push_score m 0)^[min k scoreboard_sz] m := by
  have hmissed : (now - m.last_update) / seconds m.interval_ - 1 = k := by
    unfold elapsed at hk
    omega
  unfold push_missed
  rw [hmissed]
  split
  · rfl
  next hlt =>
    -- Twice the interval may wrap, which makes it smaller.
    have hdouble : seconds (2 * m.interval_) ≤ 2 * seconds m.interval_ := by
      have hle : (2 * m.interval_).toNat ≤ 2 * m.interval_.toNat := by
        rw [UInt32.toNat_mul]
        exact Nat.mod_le _ _
      unfold seconds
      omega
    have hless : (now - m.last_update) / seconds m.interval_ < 2 := by
      rw [Nat.div_lt_iff_lt_mul (seconds_pos h)]
      omega
    have hz : k = 0 := by omega
    rw [hz]
    rfl

/-- What each update does. -/
structure Updated (m : meter) (val : UInt64) (m' : meter) : Prop where
  total_ : m'.total_ = m.total_ + val
  cnt_updates : m'.cnt_updates = m.cnt_updates + 1
  interval_ : m'.interval_ = m.interval_

/-- What an update does with the counters, by the number of intervals that are over. -/
def Rolled (m : meter) (now : ℕ) (val : UInt64) (m' : meter) : Prop :=
  match m.elapsed now with
  | 0 => m'.curr_counter_ = m.curr_counter_ + val ∧ m'.counts = m.counts
  | k + 1 => m'.curr_counter_ = val ∧ m'.counts = m.curr_counter_.toNat :: m.prev_counter_.toNat ::
      (List.replicate (min k scoreboard_sz) 0 ++ m.board).take 2

/-- An update in the interval that runs. -/
theorem update_add (h : m.interval_ ≠ 0) (hk : m.elapsed now = 0) :
    ∃ m', m.update now val = some (m'.prev_counter_, m') ∧ Updated m val m' ∧
      m'.curr_counter_ = m.curr_counter_ + val ∧ m'.counts = m.counts := by
  have hlt : ¬ now - m.last_update ≥ seconds m.interval_ :=
    Nat.not_le.mpr ((elapsed_eq_zero h).mp hk)
  refine ⟨{ m.add_total val with curr_counter_ := m.curr_counter_ + val }, ?_, ⟨rfl, rfl, rfl⟩,
    rfl, rfl⟩
  exact if_neg hlt

/-- An update that ends an interval, behind which `k` others were missed. -/
theorem update_roll (h : m.interval_ ≠ 0) {k : ℕ} (hk : m.elapsed now = k + 1) :
    ∃ m', m.update now val = some (m'.prev_counter_, m') ∧ Updated m val m' ∧
      m'.curr_counter_ = val ∧ m'.counts = m.curr_counter_.toNat :: m.prev_counter_.toNat ::
        (List.replicate (min k scoreboard_sz) 0 ++ m.board).take 2 := by
  have hge : now - m.last_update ≥ seconds m.interval_ := by
    by_contra hlt
    have hz := (elapsed_eq_zero h).mpr (Nat.not_le.mp hlt)
    omega
  have hupdate : m.update now val =
      some (((m.add_total val).roll now val).prev_counter_, (m.add_total val).roll now val) :=
    (if_pos hge).trans (if_neg h)
  have hmissed := push_missed_eq (m := m.add_total val) h hk
  obtain ⟨b, hb⟩ := push_zeros_fields (min k scoreboard_sz) (m.add_total val)
  have hboard := board_push_zeros (min k scoreboard_sz) (m.add_total val)
  rw [hb] at hmissed hboard
  have hcounts : ((m.add_total val).roll now val).counts =
      m.curr_counter_.toNat :: m.prev_counter_.toNat ::
        ({ m.add_total val with scoreboard := b } : meter).board.take 2 := by
    unfold roll
    rw [hmissed]
    rfl
  refine ⟨_, hupdate, ?_, rfl, ?_⟩
  · unfold roll
    rw [hmissed]
    exact ⟨rfl, rfl, rfl⟩
  · rw [hcounts, hboard, List.take_take]
    rfl

theorem update_spec (m : meter) (now : ℕ) (val : UInt64) (h : m.interval_ ≠ 0) :
    ∃ m', m.update now val = some (m'.prev_counter_, m') ∧ Updated m val m' ∧
      Rolled m now val m' := by
  unfold Rolled
  cases hk : m.elapsed now with
  | zero => exact update_add h hk
  | succ k => exact update_roll h hk

end

/-! ## The rate -/

section
variable (m : meter) (now : ℕ)

theorem sum_from_le (is : List (Fin 3)) (cur_it : UInt32) (ret : UInt64) :
    (m.sum_from is cur_it ret).toNat ≤
      ret.toNat + (is.map fun i => (m.scoreboard i).toNat).sum := by
  induction is generalizing cur_it ret with
  | nil => simp [sum_from]
  | cons i rest ih =>
    rw [sum_from, List.map_cons, List.sum_cons]
    split
    · omega
    · have hrest := ih (cur_it + 1) (ret + m.scoreboard i)
      have hadd : (ret + m.scoreboard i).toNat ≤ ret.toNat + (m.scoreboard i).toNat := by
        rw [UInt64.toNat_add]
        exact Nat.mod_le _ _
      omega

theorem sum_score_le : m.sum_score.toNat ≤ m.board.sum := by
  have h := m.sum_from_le [2, 1, 0] 0 0
  simp only [List.map_cons, List.map_nil, List.sum_cons, List.sum_nil, UInt64.toNat_zero] at h
  unfold sum_score board
  simp only [List.sum_cons, List.sum_nil]
  omega

/-- Nothing is added and nothing is divided while the number of updates is 0. -/
theorem get_of_cnt_zero (h : m.cnt_updates = 0)
    (hnow : now ≤ m.last_update + 4 * seconds m.interval_) : m.get now = m.prev_counter_ := by
  have hin : ¬ now > m.last_update + (1 + scoreboard_sz) * seconds m.interval_ :=
    Nat.not_lt.mpr hnow
  have hsum : m.sum_score = 0 := by
    unfold sum_score sum_from
    rw [h]
    rfl
  unfold get
  rw [if_neg hin, hsum, h]
  simp

theorem get_of_late (hnow : m.last_update + 4 * seconds m.interval_ < now) : m.get now = 0 :=
  if_pos hnow

/-- The divisor is the interval at least. -/
theorem interval_le_divisor (h : m.cnt_updates ≠ 0) :
    m.interval_.toNat ≤ (if m.cnt_updates < 4 then m.cnt_updates.toUInt64 * m.interval_.toUInt64
      else 4 * m.interval_.toUInt64).toNat := by
  have hlt := m.interval_.toNat_lt
  have hpos := toNat_pos h
  split
  next hfew =>
    have hfew' : m.cnt_updates.toNat < 4 := UInt32.lt_iff_toNat_lt.mp hfew
    have hmul : m.cnt_updates.toNat * m.interval_.toNat ≤ 4 * m.interval_.toNat :=
      Nat.mul_le_mul_right _ (by omega)
    rw [UInt64.toNat_mul, UInt32.toNat_toUInt64, UInt32.toNat_toUInt64, Nat.mod_eq_of_lt (by omega)]
    exact Nat.le_mul_of_pos_left _ hpos
  · have hfour : (4 : UInt64).toNat = 4 := rfl
    rw [UInt64.toNat_mul, UInt32.toNat_toUInt64, hfour, Nat.mod_eq_of_lt (by omega)]
    omega

theorem get_le_of_cnt_pos (h : m.cnt_updates ≠ 0) (hI : m.interval_ ≠ 0) :
    (m.get now).toNat ≤ m.counts.sum / m.interval_.toNat := by
  have hdivisor := m.interval_le_divisor h
  have hpos := toNat_pos hI
  have hsum : (m.prev_counter_ + m.sum_score).toNat ≤ m.counts.sum := by
    have hscore := m.sum_score_le
    have hmod := Nat.mod_le (m.prev_counter_.toNat + m.sum_score.toNat) (2 ^ 64)
    rw [UInt64.toNat_add, counts, List.sum_cons]
    omega
  unfold get
  simp only
  split
  · simp
  · rw [UInt64.toNat_div]
    have hne : (if m.cnt_updates < 4 then m.cnt_updates.toUInt64 * m.interval_.toUInt64
        else 4 * m.interval_.toUInt64) ≠ 0 := by
      intro hz
      rw [hz] at hdivisor
      simp at hdivisor
      omega
    rw [if_neg hne]
    exact Nat.div_le_div hsum hdivisor (by omega)

/-- The rate is right at each time, when it is right where the number of updates is 0. -/
theorem rate_iff (hI : m.interval_ ≠ 0) :
    (∀ now, (m.get now).toNat ≤ m.counts.sum / m.interval_.toNat) ↔
      (m.cnt_updates = 0 → m.prev_counter_.toNat * m.interval_.toNat ≤ m.counts.sum) := by
  have hpos := toNat_pos hI
  constructor
  · intro h hz
    have hget := h m.last_update
    rw [m.get_of_cnt_zero m.last_update hz (by omega)] at hget
    exact (Nat.le_div_iff_mul_le hpos).mp hget
  · intro h now
    by_cases hz : m.cnt_updates = 0
    · by_cases hnow : now ≤ m.last_update + 4 * seconds m.interval_
      · rw [m.get_of_cnt_zero now hz hnow]
        exact (Nat.le_div_iff_mul_le hpos).mpr (h hz)
      · rw [m.get_of_late now (Nat.not_le.mp hnow)]
        simp
    · exact m.get_le_of_cnt_pos now hz hI

end

/-! ## The window -/

theorem take_cons_take (n x : ℕ) (l : List ℕ) : (x :: l.take n).take n = (x :: l).take n := by
  cases n with
  | zero => rfl
  | succ n => rw [List.take_succ_cons, List.take_succ_cons, List.take_take, Nat.min_eq_left (by omega)]

/-- The window moves by the intervals that were missed and the one that is over. -/
theorem window_put (k : ℕ) (current : List UInt64) (completed : List (List UInt64)) :
    window (List.replicate k [] ++ current :: completed) =
      (List.replicate k 0 ++ bytes current :: window completed).take 4 := by
  induction k with
  | zero =>
    exact (take_cons_take 4 (bytes current) _).symm
  | succ k ih =>
    rw [List.replicate_succ, List.replicate_succ, List.cons_append, List.cons_append,
      ← take_cons_take, ← ih]
    unfold window
    rw [List.map_cons, List.cons_append, take_cons_take]
    rfl

theorem bytes_append (a b : List UInt64) : bytes (a ++ b) = bytes a + bytes b := by
  unfold bytes
  rw [List.map_append, List.sum_append]

theorem bytes_singleton (val : UInt64) : bytes [val] = val.toNat := by
  simp [bytes]

/-! ## One update of the books -/

/-- Where the books begin: a meter that was just made. -/
def start (interval : UInt32) (now : ℕ) : Usage where
  mtr := { last_update := now, interval_ := interval }
  clock := now

theorem counted_start (interval : UInt32) (now : ℕ) : Counted (start interval now) where
  defined := rfl
  total := rfl
  split := rfl
  current := rfl
  counts := rfl
  rate := by
    intro t
    by_cases ht : t ≤ now + 4 * seconds interval
    · rw [get_of_cnt_zero _ t rfl ht]
      exact Nat.zero_le _
    · rw [get_of_late _ t (Nat.not_le.mp ht)]
      exact Nat.zero_le _

section
variable {u u' : Usage} {call : ℕ × UInt64}

/-- The three ways of a step: it may divide by 0, stay in the interval, or end some. -/
theorem step_cases (h : step u call = some u') :
    (u.mtr.interval_ = 0 ∧ u' = { u with undefined := true }) ∨
    (u.mtr.interval_ ≠ 0 ∧ ∃ m', Updated u.mtr call.2 m' ∧
      u' = { u.put call.1 call.2 with mtr := m' } ∧
      Rolled u.mtr call.1 call.2 m') := by
  unfold step at h
  split at h
  · cases h
  · by_cases hI : u.mtr.interval_ = 0
    · left
      have hupdate : u.mtr.update call.1 call.2 = none := by
        have hge : call.1 - u.mtr.last_update ≥ seconds u.mtr.interval_ := by
          rw [hI]
          exact Nat.zero_le _
        exact (if_pos hge).trans (if_pos hI)
      rw [hupdate] at h
      cases h
      exact ⟨hI, rfl⟩
    · right
      obtain ⟨m', hm, hupd, hroll⟩ := update_spec u.mtr call.1 call.2 hI
      rw [hm] at h
      cases h
      exact ⟨hI, m', hupd, rfl, hroll⟩

theorem put_values (u : Usage) (now : ℕ) (val : UInt64) :
    (u.put now val).values = u.values ++ [val] := by
  unfold Usage.put
  split <;> rfl

theorem put_split (now : ℕ) (val : UInt64) (h : (u.current :: u.completed).reverse.flatten = u.values) :
    ((u.put now val).current :: (u.put now val).completed).reverse.flatten = u.values ++ [val] := by
  rw [List.reverse_cons, List.flatten_append, List.flatten_singleton] at h
  unfold Usage.put
  split
  · rw [List.reverse_cons, List.flatten_append, List.flatten_singleton, ← List.append_assoc, h]
  · rw [← h]
    simp

/-- The order of the board after a roll, against the order of the intervals. -/
theorem roll_counts_iff (curr prev b0 b1 b2 k : ℕ) :
    curr :: prev :: (List.replicate (min k scoreboard_sz) 0 ++ [b0, b1, b2]).take 2 =
        (List.replicate k 0 ++ curr :: prev :: [b0, b1, b2]).take 4 ↔
      (1 ≤ k → curr = 0 ∧ prev = 0) := by
  unfold scoreboard_sz
  match k with
  | 0 => simp
  | 1 =>
    simp
    omega
  | 2 =>
    simp [List.replicate_succ]
    omega
  | 3 =>
    simp [List.replicate_succ]
    omega
  | k + 4 =>
    simp [List.replicate_succ]

variable {m' : meter}

theorem total_iff (hu : Counted u) (hupd : Updated u.mtr call.2 m') :
    m'.total.toNat = bytes (u.values ++ [call.2]) ↔
      u.mtr.total_.toNat + call.2.toNat < 2 ^ 64 := by
  have htotal := hu.total
  rw [meter.total] at htotal
  rw [meter.total, hupd.total_, UInt64.toNat_add, bytes_append, bytes_singleton, ← htotal]
  omega

theorem counts_iff (hu : Counted u) (h : Rolled u.mtr call.1 call.2 m') :
    m'.counts = window (u.put call.1 call.2).completed ↔
      (2 ≤ u.mtr.elapsed call.1 → u.mtr.curr_counter_ = 0 ∧ u.mtr.prev_counter_ = 0) := by
  unfold Rolled at h
  unfold Usage.put
  cases hk : u.mtr.elapsed call.1 with
  | zero =>
    rw [hk] at h
    rw [h.2, hu.counts]
    simp
  | succ k =>
    rw [hk] at h
    simp only
    rw [h.2, window_put, ← hu.counts, ← hu.current, counts, board, roll_counts_iff]
    rw [← UInt64.toNat_inj, ← UInt64.toNat_inj]
    simp

theorem current_eq (hu : Counted u) (h : Rolled u.mtr call.1 call.2 m')
    (hroom : u.mtr.total_.toNat + call.2.toNat < 2 ^ 64) :
    m'.curr_counter_.toNat = bytes (u.put call.1 call.2).current := by
  -- The interval that runs has at most the bytes of all updates.
  have hle : bytes u.current ≤ u.mtr.total_.toNat := by
    have hsplit := hu.split
    rw [List.reverse_cons, List.flatten_append, List.flatten_singleton] at hsplit
    have htotal := hu.total
    rw [meter.total, ← hsplit, bytes_append] at htotal
    omega
  unfold Rolled at h
  unfold Usage.put
  cases hk : u.mtr.elapsed call.1 with
  | zero =>
    rw [hk] at h
    simp only
    rw [h.1, bytes_append, bytes_singleton, ← hu.current, UInt64.toNat_add]
    rw [← hu.current] at hle
    exact Nat.mod_eq_of_lt (by omega)
  | succ k =>
    rw [hk] at h
    simp only
    rw [h.1, bytes_singleton]

/-- The counters that the condition on the number of updates is about. -/
theorem counts_at_eq (h : Rolled u.mtr call.1 call.2 m')
    (hmissed : 2 ≤ u.mtr.elapsed call.1 → u.mtr.curr_counter_ = 0 ∧ u.mtr.prev_counter_ = 0) :
    (m'.prev_counter_.toNat * u.mtr.interval_.toNat ≤ m'.counts.sum ↔
      (u.mtr.counts_at call.1).headI * u.mtr.interval_.toNat ≤
        (u.mtr.counts_at call.1).sum) := by
  have hhead : m'.prev_counter_.toNat = m'.counts.headI := rfl
  rw [hhead]
  unfold Rolled at h
  unfold counts_at
  match hk : u.mtr.elapsed call.1 with
  | 0 =>
    rw [hk] at h
    rw [h.2]
  | 1 =>
    rw [hk] at h
    rw [h.2]
    exact Iff.rfl
  | k + 2 =>
    rw [hk] at h
    obtain ⟨hcurr, -⟩ := hmissed (by omega)
    rw [h.2, hcurr]
    simp

/-- The condition is exact for one update. -/
theorem counted_step (hu : Counted u) (h : step u call = some u') :
    Counted u' ↔ Keeps u call := by
  rcases step_cases h with ⟨hI, rfl⟩ | ⟨hI, m', hupd, rfl, hroll⟩
  · constructor
    · intro hc
      exact absurd hc.defined (by simp)
    · intro hk
      exact absurd hI hk.interval
  · have hrate : m'.counts = window (u.put call.1 call.2).completed →
        ((∀ now, (m'.get now).toNat ≤
            (window (u.put call.1 call.2).completed).sum / m'.interval_.toNat) ↔
          (m'.cnt_updates = 0 → m'.prev_counter_.toNat * u.mtr.interval_.toNat ≤ m'.counts.sum)) := by
      intro hcounts
      have hI' : m'.interval_ ≠ 0 := by rwa [hupd.interval_]
      rw [← hcounts, ← hupd.interval_]
      exact m'.rate_iff hI'
    constructor
    · intro hc
      have htotal : m'.total.toNat = bytes (u.put call.1 call.2).values := hc.total
      rw [put_values] at htotal
      have hmissed := (counts_iff hu hroll).mp hc.counts
      refine ⟨hI, (total_iff hu hupd).mp htotal, hmissed, fun hz => ?_⟩
      rw [← hupd.cnt_updates] at hz
      exact (counts_at_eq hroll hmissed).mp ((hrate hc.counts).mp hc.rate hz)
    · intro hk
      have hcounts := (counts_iff hu hroll).mpr hk.missed
      refine ⟨?_, ?_, ?_, current_eq hu hroll hk.room, hcounts, (hrate hcounts).mpr fun hz => ?_⟩
      · show (u.put call.1 call.2).undefined = false
        unfold Usage.put
        split <;> exact hu.defined
      · show m'.total.toNat = bytes (u.put call.1 call.2).values
        rw [put_values]
        exact (total_iff hu hupd).mpr hk.room
      · show _ = (u.put call.1 call.2).values
        rw [put_values]
        exact put_split call.1 call.2 hu.split
      · rw [hupd.cnt_updates] at hz
        exact (counts_at_eq hroll hk.missed).mpr (hk.wrapped hz)

/-- The books of a meter are right in each state of a run when, and only when, each update of the
run keeps them. -/
theorem counted_iff (interval : UInt32) (now : ℕ) (calls : List (ℕ × UInt64)) :
    Always step Counted (start interval now) calls ↔ Meets step Keeps (start interval now) calls := by
  refine always_iff_meets (P := Counted) (fun _ h => h) ?_ ?_ (counted_start interval now) calls
  · intro u call u' hu hk h
    exact (counted_step hu h).mpr hk
  · intro u call u' hu hk h hc
    exact hk ((counted_step hu h).mp hc)

end

/-- Three seconds without an update behind two with 100 bytes each. The zeros belong to the newest
intervals, and the meter has them behind the bytes. -/
theorem not_counted : ¬ ∀ calls : List (ℕ × UInt64), Always step Counted (start 1 0) calls := by
  intro h
  have hrun := h [(0, 100), (1000000000, 100), (4000000000, 100)]
  have hcounts := (always_exec hrun rfl).counts
  revert hcounts
  decide

end meter

end socle
