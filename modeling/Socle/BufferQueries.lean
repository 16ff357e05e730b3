-- What a buffer answers about its bytes: `find`, `rfind`, `flush` and `view`
-- (common/buffer.cpp), beside the list of the bytes. A `size_type` is below 2^64.
import Mathlib.Order.Bounds.Basic
import Socle.BufferLists

namespace socle.membuf

open mempool lib.bytes lib.known

/-! ## The functions -/

def npos : Nat := 18446744073709551615

def memchr (mem : Nat → UInt8) (v : UInt8) : Nat → Nat → Option Nat
  | _, 0 => none
  | p, n + 1 => if mem p = v then some p else memchr mem v (p + 1) n

def buffer.find (b : buffer) (mem : Nat → UInt8) (v : UInt8) (pos : Nat) : Nat :=
  if b.size_ = 0 ∨ pos ≥ b.size_ then npos
  else
    match memchr mem v (b.data_ + pos) (b.size_ - pos) with
    | some position => position - b.data_
    | none => npos

/-- The loop of `rfind`, before `n-- != 0`. -/
def buffer.rfind_loop (b : buffer) (mem : Nat → UInt8) (v : UInt8) : Nat → Nat
  | 0 => npos
  | n + 1 => if mem (b.data_ + n) = v then n else b.rfind_loop mem v n

def buffer.rfind (b : buffer) (mem : Nat → UInt8) (v : UInt8) (pos : Nat) : Nat :=
  if b.size_ ≠ 0 then
    let n := b.size_ - 1
    b.rfind_loop mem v ((if n > pos then pos else n) + 1)
  else npos

def World.memmove (w : World) (dst src n : Nat) : World :=
  { w with mem := copy w.mem dst src n }

/-- `std::memcpy` is defined for memory that does not overlap. -/
def World.memcpy_apart (w : World) (dst src n : Nat) : Option World :=
  if dst + n ≤ src ∨ src + n ≤ dst then some (w.memcpy dst src n) else none

/-- `buffer::flush` with its choice of a copy, or `none` where the copy is not defined, or where it
throws `std::out_of_range`. -/
def buffer.flush_apart (b : buffer) (bytes : Nat) (w : World) : Option (buffer × World) :=
  if bytes = 0 ∨ bytes ≥ b.size_ then some (b.clear, w)
  else if bytes < b.size_ then
    let moved :=
      if 2 * bytes % 2 ^ 64 < b.size_ then
        some (w.memmove b.data_ (b.data_ + bytes) (b.size_ - bytes))
      else w.memcpy_apart b.data_ (b.data_ + bytes) (b.size_ - bytes)
    moved.map fun w => ({ b with size_ := b.size_ - bytes }, w)
  else none

/-! ## The bytes -/

/-- The content of a buffer. -/
def buffer.bytes (b : buffer) (mem : Nat → UInt8) : List UInt8 :=
  slice mem b.data_ b.size_

section

variable {b : buffer} {mem : Nat → UInt8} {w : World} {v : UInt8} {pos len n : Nat}

theorem bytes_length (b : buffer) (mem : Nat → UInt8) : (b.bytes mem).length = b.size_ :=
  slice_length b.size_

theorem holds_at (i : Nat) :
    (b.bytes mem)[i]? = some v ↔ i < b.size_ ∧ mem (b.data_ + i) = v := by
  unfold buffer.bytes slice
  rw [List.getElem?_map]
  by_cases hi : i < b.size_
  · rw [List.getElem?_range hi]
    simp [hi]
  · rw [List.getElem?_eq_none (by simpa using hi)]
    simp [hi]

/-- A part of the memory of a buffer shows a part of its bytes. -/
theorem bytes_inside (b : buffer) (mem : Nat → UInt8) (h : pos + n ≤ b.size_) :
    slice mem (b.data_ + pos) n = ((b.bytes mem).drop pos).take n := by
  have hsplit : b.size_ = pos + (n + (b.size_ - pos - n)) := by omega
  unfold buffer.bytes
  rw [hsplit, slice_add, slice_add, List.drop_left' (slice_length pos),
    List.take_left' (slice_length n)]

/-! ## Searches -/

/-- `memchr` finds the first of the `n` places from `p` on. -/
theorem memchr_some {p q : Nat} (h : memchr mem v p n = some q) :
    IsLeast {a | p ≤ a ∧ a < p + n ∧ mem a = v} q := by
  induction n generalizing p with
  | zero => cases h
  | succ n ih =>
    unfold memchr at h
    split at h
    next hv =>
      cases h
      exact ⟨⟨Nat.le_refl q, by omega, hv⟩, fun a ha => ha.1⟩
    next hv =>
      obtain ⟨⟨hle, hlt, hq⟩, hleast⟩ := ih h
      refine ⟨⟨by omega, by omega, hq⟩, ?_⟩
      rintro a ⟨hpa, han, ha⟩
      have hne : a ≠ p := fun heq => hv (heq ▸ ha)
      exact hleast ⟨by omega, by omega, ha⟩

theorem memchr_none {p : Nat} (h : memchr mem v p n = none) :
    ∀ a, p ≤ a → a < p + n → mem a ≠ v := by
  induction n generalizing p with
  | zero => omega
  | succ n ih =>
    unfold memchr at h
    split at h
    next => cases h
    next hv =>
      intro a hpa han ha
      have hne : a ≠ p := fun heq => hv (heq ▸ ha)
      exact ih h a (by omega) (by omega) ha

/-- A search for `best` of some positions, which may be none. -/
def Finds (best : Set Nat → Nat → Prop) (positions : Set Nat) (i : Nat) : Prop :=
  positions = ∅ ∧ i = npos ∨ best positions i

/-- `find` gives the least position from `pos` on. -/
theorem find_least (b : buffer) (mem : Nat → UInt8) (v : UInt8) (pos : Nat) :
    Finds IsLeast {i | pos ≤ i ∧ (b.bytes mem)[i]? = some v} (b.find mem v pos) := by
  unfold buffer.find
  split
  next hout =>
    left
    refine ⟨Set.eq_empty_of_forall_notMem ?_, rfl⟩
    rintro i ⟨hpos, hi⟩
    have hlt := (holds_at i).mp hi
    omega
  next hin =>
    split
    next q hq =>
      right
      obtain ⟨⟨hle, hlt, hv⟩, hleast⟩ := memchr_some hq
      have heq : b.data_ + (q - b.data_) = q := by omega
      refine ⟨⟨by omega, (holds_at _).mpr ⟨by omega, by rw [heq]; exact hv⟩⟩, ?_⟩
      rintro i ⟨hpos, hi⟩
      obtain ⟨hsize, hmem⟩ := (holds_at i).mp hi
      have hq' := hleast (a := b.data_ + i) ⟨by omega, by omega, hmem⟩
      omega
    next hq =>
      left
      refine ⟨Set.eq_empty_of_forall_notMem ?_, rfl⟩
      rintro i ⟨hpos, hi⟩
      obtain ⟨hsize, hmem⟩ := (holds_at i).mp hi
      exact memchr_none hq (b.data_ + i) (by omega) (by omega) hmem

theorem rfind_loop_greatest (b : buffer) (mem : Nat → UInt8) (v : UInt8) (n : Nat) (hn : n ≤ b.size_) :
    Finds IsGreatest {i | i < n ∧ (b.bytes mem)[i]? = some v} (b.rfind_loop mem v n) := by
  induction n with
  | zero =>
    left
    refine ⟨Set.eq_empty_of_forall_notMem ?_, rfl⟩
    rintro i ⟨hi, -⟩
    omega
  | succ n ih =>
    unfold buffer.rfind_loop
    split
    next hv =>
      right
      refine ⟨⟨Nat.lt_succ_self n, (holds_at n).mpr ⟨hn, hv⟩⟩, ?_⟩
      rintro i ⟨hi, -⟩
      omega
    next hv =>
      -- the position before `n` does not hold the byte
      have hsame : {i | i < n + 1 ∧ (b.bytes mem)[i]? = some v} =
          {i | i < n ∧ (b.bytes mem)[i]? = some v} := by
        ext i
        constructor
        · rintro ⟨hi, hmem⟩
          have hne : i ≠ n := fun heq => hv (heq ▸ ((holds_at i).mp hmem).2)
          exact ⟨by omega, hmem⟩
        · rintro ⟨hi, hmem⟩
          exact ⟨by omega, hmem⟩
      rw [hsame]
      exact ih (by omega)

/-- `rfind` gives the greatest position up to `pos`. -/
theorem rfind_greatest (b : buffer) (mem : Nat → UInt8) (v : UInt8) (pos : Nat) :
    Finds IsGreatest {i | i ≤ pos ∧ (b.bytes mem)[i]? = some v} (b.rfind mem v pos) := by
  unfold buffer.rfind
  split
  next hsize =>
    have hloop := rfind_loop_greatest b mem v ((if b.size_ - 1 > pos then pos else b.size_ - 1) + 1)
      (by split <;> omega)
    have hsame : {i | i < (if b.size_ - 1 > pos then pos else b.size_ - 1) + 1 ∧
        (b.bytes mem)[i]? = some v} = {i | i ≤ pos ∧ (b.bytes mem)[i]? = some v} := by
      ext i
      constructor
      · rintro ⟨hi, hmem⟩
        have hlt := (holds_at i).mp hmem
        exact ⟨by split at hi <;> omega, hmem⟩
      · rintro ⟨hi, hmem⟩
        have hlt := (holds_at i).mp hmem
        exact ⟨by split <;> omega, hmem⟩
    rw [hsame] at hloop
    exact hloop
  next hsize =>
    left
    refine ⟨Set.eq_empty_of_forall_notMem ?_, rfl⟩
    rintro i ⟨-, hmem⟩
    have hlt := (holds_at i).mp hmem
    omega

/-! ## The bytes behind a flush -/

/-- The copy of `flush` is defined, and does what `memcpy` does. -/
theorem flush_apart_eq (b : buffer) (n : Nat) (w : World) :
    b.flush_apart n w = some (b.flush n w) := by
  unfold buffer.flush_apart buffer.flush
  by_cases hall : n = 0 ∨ n ≥ b.size_
  · rw [if_pos hall, if_pos hall]
  · rw [if_neg hall, if_neg hall, if_pos (by omega)]
    by_cases hmove : 2 * n % 2 ^ 64 < b.size_
    · rw [if_pos hmove]
      rfl
    · -- twice `n` has not wrapped, so what stays is not longer than what goes
      have hapart : b.data_ + (b.size_ - n) ≤ b.data_ + n := by omega
      unfold World.memcpy_apart
      rw [if_neg hmove, if_pos (Or.inl hapart)]
      rfl

theorem flush_bytes (b : buffer) (n : Nat) (w : World) :
    (b.flush n w).1.bytes (b.flush n w).2.mem =
      if n = 0 ∨ n ≥ b.size_ then [] else (b.bytes w.mem).drop n := by
  unfold buffer.flush
  by_cases hall : n = 0 ∨ n ≥ b.size_
  · rw [if_pos hall, if_pos hall]
    rfl
  · rw [if_neg hall, if_neg hall]
    have hpart := bytes_inside b w.mem (show n + (b.size_ - n) ≤ b.size_ by omega)
    rw [List.take_of_length_le (by rw [List.length_drop, bytes_length])] at hpart
    rw [← hpart]
    unfold buffer.bytes slice
    apply List.map_congr_left
    intro k hk
    have hlt := List.mem_range.mp hk
    rw [memcpy_mem]
    unfold copy
    simp only at hlt ⊢
    rw [if_pos (by omega), Nat.add_sub_cancel_left]

/-! ## Views -/

/-- The view shows `len` bytes from `pos` on, as far as there are such. -/
structure Views (b : buffer) (mem : Nat → UInt8) (pos len : Nat) : Prop where
  inside : pos < b.size_ → ∃ x, b.view pos len = some x ∧ x.data_ = b.data_ + pos ∧
    x.bytes mem = ((b.bytes mem).drop pos).take len
  outside : pos ≥ b.size_ → b.view pos len = none

theorem views_of_sum (hsum : pos < b.size_ → pos + len < 2 ^ 64) : Views b mem pos len := by
  refine ⟨fun hpos => ?_, fun hpos => if_neg (by omega)⟩
  have hview : ∃ x, b.view pos len = some x := by
    unfold buffer.view
    rw [if_pos hpos]
    split <;> exact ⟨_, if_neg (by omega)⟩
  obtain ⟨x, hx⟩ := hview
  obtain ⟨-, rfl⟩ := view_some hx (hsum hpos)
  refine ⟨_, hx, rfl, ?_⟩
  have hpart := bytes_inside b mem (show pos + min len (b.size_ - pos) ≤ b.size_ by omega)
  unfold buffer.bytes at hpart ⊢
  rw [hpart, List.take_eq_take_iff, List.length_drop, slice_length]
  omega

/-- The sum that wraps is small, so the view is longer than the rest of the buffer. -/
theorem not_views (hsize : b.size_ < 2 ^ 64) (hlen : len < 2 ^ 64) (hpos : pos < b.size_)
    (hsum : ¬ pos + len < 2 ^ 64) : ¬ Views b mem pos len := by
  intro h
  obtain ⟨x, hx, -, hbytes⟩ := h.inside hpos
  unfold buffer.view at hx
  rw [if_pos hpos, if_pos (by omega)] at hx
  have hlong := congrArg List.length hbytes
  rw [bytes_length, List.length_take, List.length_drop, bytes_length, ctor_own_some hx] at hlong
  simp only at hlong
  omega

/-- The answers of a buffer are what its bytes say. -/
structure Answers (b : buffer) (w : World) (v : UInt8) (n pos len : Nat) : Prop where
  flush : ∃ r, b.flush_apart n w = some r ∧
    r.1.bytes r.2.mem = if n = 0 ∨ n ≥ b.size_ then [] else (b.bytes w.mem).drop n
  find : Finds IsLeast {i | pos ≤ i ∧ (b.bytes w.mem)[i]? = some v} (b.find w.mem v pos)
  rfind : Finds IsGreatest {i | i ≤ pos ∧ (b.bytes w.mem)[i]? = some v} (b.rfind w.mem v pos)
  view : Views b w.mem pos len

/-- All answers are right just when the sum of a position in the buffer and a length does not wrap. -/
theorem answers_iff (b : buffer) (w : World) (v : UInt8) (n pos len : Nat)
    (hsize : b.size_ < 2 ^ 64) (hlen : len < 2 ^ 64) :
    Answers b w v n pos len ↔ (pos < b.size_ → pos + len < 2 ^ 64) := by
  constructor
  · intro h hpos
    by_contra hsum
    exact not_views hsize hlen hpos hsum h.view
  · intro hsum
    exact ⟨⟨b.flush n w, flush_apart_eq b n w, flush_bytes b n w⟩, find_least b w.mem v pos,
      rfind_greatest b w.mem v pos, views_of_sum hsum⟩

end

/-- The answers of a buffer of four bytes. -/
theorem answers_iff_four :
    Answers { data_ := 16, size_ := 4, capacity_ := 4 }
      { pool := memPool.init bump 0 0 0 0 0 0, mem := fun a => UInt8.ofNat a } 18 1 1 2 ↔
        (1 < 4 → 1 + 2 < 2 ^ 64) :=
  answers_iff { data_ := 16, size_ := 4, capacity_ := 4 }
    { pool := memPool.init bump 0 0 0 0 0 0, mem := fun a => UInt8.ofNat a } 18 1 1 2
    (by norm_num) (by norm_num)

/-- A view of a buffer of four bytes, from the second on and `npos` long, is `npos` long. -/
theorem a_view_is_too_long :
    ¬ ∀ (b : buffer) (w : World) (v : UInt8) (n pos len : Nat), b.size_ < 2 ^ 64 → len < 2 ^ 64 →
      Answers b w v n pos len := by
  intro h
  have hall := h { data_ := 16, size_ := 4, capacity_ := 4 }
    { pool := memPool.init bump 0 0 0 0 0 0, mem := fun a => UInt8.ofNat a } 0 0 1 npos
    (by norm_num) (by norm_num [npos])
  exact not_views (by norm_num) (by norm_num [npos]) (by norm_num) (by norm_num [npos]) hall.view

end socle.membuf
