-- The bytes that each function of the buffer leaves: a copy says what its source
-- says, new memory says what the old memory said, and nothing else is written.
import Socle.Lib.Known
import Socle.BufferRoom

namespace socle.membuf

open mempool lib.ledger lib.known

variable {ι : Type*} {mine : Nat → Prop}

/-! ## Copies -/

variable (A : Allocator) {w : World} {b x : buffer} {T : ι → Multiset Nat} {i : ι}
  {s : Multiset Nat} {n src : Nat} {l l' : List (Option UInt8)}

theorem memcpy_mem (w : World) (dst src n : Nat) :
    (w.memcpy dst src n).mem = copy w.mem dst src n := rfl

/-- The buffer says `l`. -/
def Shows (r : buffer × World) (l : List (Option UInt8)) : Prop :=
  l.length = r.1.size_ ∧ At r.2.mem r.1.data_ l

/-- New memory with a copy in it. -/
theorem shows_filled (h : At w.mem src l) (hl : l.length = n) (m : Nat) :
    Shows (.inside (w.obtain A m).1 n,
      (w.obtain A m).2.memcpy (w.obtain A m).1.ptr src n) l := by
  refine ⟨hl, ?_⟩
  rw [memcpy_mem, World.obtain_mem]
  exact at_copy h (Nat.le_of_eq hl)

theorem shows_nothing {r : buffer × World} (hr : r.1.size_ = 0) (hl : l.length = 0) : Shows r l := by
  rw [List.length_eq_zero_iff] at hl
  subst hl
  exact ⟨hr.symm, at_nil⟩

theorem ctor_cap_le {c : Nat} {r : buffer × World} (hr : ctor_cap A n c w = some r) : n ≤ c := by
  by_contra hle
  unfold ctor_cap at hr
  rw [if_pos (by omega)] at hr
  cases hr

theorem ctor_bytes_shows (h : At w.mem src l) (hl : l.length = n) :
    Shows (ctor_bytes A src n w) l := by
  by_cases hn : n = 0
  · subst hn
    exact shows_nothing (by simp [ctor_bytes]) hl
  · rw [ctor_bytes_eq A w src hn]
    exact shows_filled A h hl n

theorem ctor_bytes_cap_shows {c : Nat} {r : buffer × World} (h : At w.mem src l)
    (hl : l.length = n) (hr : ctor_bytes_cap A src n c w = some r) : Shows r l := by
  by_cases hle : n ≤ c
  · by_cases hc : c = 0
    · have hn : n = 0 := by omega
      subst hn hc
      simp only [ctor_bytes_cap, gt_iff_lt, Nat.lt_irrefl, if_false, ne_eq, not_true_eq_false,
        Option.some.injEq] at hr
      subst hr
      exact shows_nothing rfl hl
    · rw [ctor_bytes_cap_eq A w src hle hc, Option.some.injEq] at hr
      subst hr
      exact shows_filled A h hl c
  · unfold ctor_bytes_cap at hr
    rw [if_pos (by omega)] at hr
    cases hr

theorem copy_ctor_shows (hx : x.size_ ≤ x.capacity_) (h : At w.mem x.data_ l)
    (hl : l.length = x.size_) : Shows (copy_ctor A x w) l := by
  by_cases hc : x.capacity_ = 0
  · have hn : x.size_ = 0 := by omega
    apply shows_nothing _ (hl.trans hn)
    simp [copy_ctor, hn]
  cases hf : x.free_ with
  | true =>
    rw [copy_ctor_eq A w hf hc]
    exact shows_filled A h hl _
  | false =>
    simp only [copy_ctor, hf, hc, ne_eq, not_false_eq_true, if_true, Bool.false_eq_true, if_false]
    exact ⟨hl, h⟩

theorem copy_assign_shows (hs : CopiesInto b x w) (h : At w.mem x.data_ l)
    (hl : l.length = x.size_) : Shows (b.copy_assign A x w) l := by
  unfold CopiesInto at hs
  by_cases hg : x.size_ > b.capacity_ ∨ b.data_ = 0
  · rw [if_pos hg] at hs
    cases hf : x.free_ with
    | true =>
      rw [copy_assign_own A w hg hf (hs hf).1]
      apply shows_filled A _ hl
      rw [dealloc_mem]
      exact h
    | false =>
      rw [copy_assign_view A w hg hf]
      refine ⟨hl, ?_⟩
      rw [dealloc_mem]
      exact h
  · rw [if_neg hg] at hs
    rw [copy_assign_stay A w hg]
    rcases hs with hn | hs
    · exact shows_nothing hn (hl.trans hn)
    split at hs
    · rename_i hf
      rw [if_pos hf]
      exact ⟨hl, at_copy h (Nat.le_of_eq hl)⟩
    · rename_i hf
      rw [if_neg hf]
      rw [hs] at h
      exact ⟨hl, h⟩

/-- `operator=` writes only where the new bytes are. -/
theorem copy_assign_keeps {a : Nat} (hb : b.Good w) (ha : b.Covers a)
    (hn : ¬ a < b.data_ + x.size_) : (b.copy_assign A x w).2.mem a = w.mem a := by
  obtain ⟨hf, hlo, hhi⟩ := ha
  have hg : ¬ (x.size_ > b.capacity_ ∨ b.data_ = 0) := by
    rintro (hg | hg)
    · omega
    · have hc := hb.null hf hg
      omega
  rw [copy_assign_stay A w hg]
  split
  · exact copy_apart (by omega)
  · rfl

theorem assign_shows (hl : l.length = n) (h : if src = 0 then l = .replicate n none
    else At w.mem src l) : Shows (b.assign A src n w) l := by
  by_cases hn : n > b.capacity_
  · rw [assign_grow A w src hn]
    split at h
    · rename_i hd
      rw [if_neg (by simpa using hd), h]
      exact ⟨by simp [buffer.inside], at_unknown⟩
    · rename_i hd
      rw [if_pos hd]
      refine ⟨hl, ?_⟩
      rw [memcpy_mem, World.obtain_mem, dealloc_mem]
      exact at_copy h (Nat.le_of_eq hl)
  · rw [assign_stay A w src hn]
    split at h
    · rename_i hd
      rw [if_neg (by simpa using hd), h]
      exact ⟨by simp, at_unknown⟩
    · rename_i hd
      rw [if_pos hd]
      exact ⟨hl, at_copy h (Nat.le_of_eq hl)⟩

/-- `assign` writes only where the new bytes are. -/
theorem assign_keeps {a : Nat} (ha : b.Covers a) (hn : ¬ a < b.data_ + n) (d : Nat) :
    (b.assign A d n w).2.mem a = w.mem a := by
  obtain ⟨-, hlo, hhi⟩ := ha
  rw [assign_stay A w d (by omega)]
  split
  · exact copy_apart (by omega)
  · rfl

theorem capacity_shows (h : At w.mem b.data_ l) (hl : l.length = b.size_) :
    Shows (b.capacity A n w).2 l := by
  by_cases hc : b.capacity_ < n
  · rw [capacity_eq A w b hc]
    refine ⟨hl, ?_⟩
    rw [dealloc_mem, memcpy_mem, World.obtain_mem]
    exact at_copy h (Nat.le_of_eq hl)
  · unfold buffer.capacity
    rw [if_pos (by omega)]
    exact ⟨hl, h⟩

/-- A buffer that gets new memory has nothing of its old memory any more. -/
theorem capacity_leaves_old [DecidableEq ι] (h : Kept mine w.pool T) (hi : T i = b.own + s) (hm : Modest w.pool)
    (hb : b.Good w) (hc : b.capacity_ < n) {a : Nat} (ha : b.Covers a) :
    ¬ (b.capacity A n w).2.1.Covers a := by
  obtain ⟨hf, hlo, hhi⟩ := ha
  rintro ⟨-, hlo', hhi'⟩
  have hne : n ≠ 0 := by omega
  have hd : b.data_ ≠ 0 := by
    intro hd
    have hcap := hb.null hf hd
    omega
  rw [capacity_eq A w b hc] at hlo' hhi'
  obtain ⟨-, hroom, -⟩ := room_obtain h hm A hne
  obtain ⟨k, hk, hle⟩ := hb.room hf hd
  have hold : Room (w.obtain A n).2.pool b.data_ b.capacity_ := ⟨k, backed_obtain hk A n, hle⟩
  have hapart := (kept_obtain h A n hi).toLaid.room_apart hroom hold
    (obtain_fresh A h hi hne hf hm)
  simp only [buffer.inside] at hlo' hhi'
  omega

/-- `capacity` leaves the bytes of a buffer that has enough. -/
theorem capacity_stay (hc : ¬ b.capacity_ < n) : (b.capacity A n w).2 = (b, w) := by
  unfold buffer.capacity
  rw [if_pos (by omega)]

theorem size_shows (h : At w.mem b.data_ l) (hl : l.length = b.size_) :
    Shows (b.size A n w).2 (resize l n) := by
  refine ⟨?_, ?_⟩
  · rw [resize_length]
    unfold buffer.size
    split
    rfl
  · unfold buffer.size
    by_cases hc : b.capacity_ < n
    · simp only [if_pos hc]
      exact at_resize (capacity_shows A h hl).2
    · simp only [if_neg hc]
      exact at_resize h

theorem flush_shows (h : At w.mem b.data_ l) (hl : l.length = b.size_) :
    Shows (b.flush n w) (if n = 0 ∨ n ≥ l.length then [] else l.drop n) := by
  unfold buffer.flush
  rw [← hl]
  split
  · exact ⟨rfl, at_nil⟩
  · refine ⟨by simp, ?_⟩
    exact at_copy (at_drop h n) (by simp)

theorem flush_keeps {a : Nat} (ha : b.Covers a) (hn : ¬ (n ≠ 0 ∧ a < b.data_ + (b.size_ - n))) :
    (b.flush n w).2.mem a = w.mem a := by
  obtain ⟨-, hlo, hhi⟩ := ha
  unfold buffer.flush
  split
  · rfl
  · exact copy_apart (by omega)

/-- `append` writes the new bytes after the old ones. -/
theorem append_shows (h : At w.mem b.data_ l) (hl : l.length = b.size_) (h' : At w.mem src l')
    (hl' : l'.length = n)
    (hstays : b.capacity_ < b.size_ + n → ∀ k x, l'[k]? = some (some x) →
      ¬ ((b.capacity A (b.size_ + n) w).2.1.data_ ≤ src + k ∧
        src + k < (b.capacity A (b.size_ + n) w).2.1.data_ + b.size_)) :
    Shows (b.append A src n w) (l ++ l') := by
  by_cases hn : n = 0
  · have hnil : l' = [] := List.length_eq_zero_iff.mp (hl'.trans hn)
    subst hn hnil
    simp only [buffer.append, ne_eq, not_true_eq_false, if_false, List.append_nil]
    exact ⟨hl, h⟩
  by_cases hc : b.capacity_ < b.size_ + n
  · obtain ⟨-, hold⟩ := capacity_shows A (n := b.size_ + n) h hl
    rw [append_grow A w src hc hn]
    refine ⟨by simp [hl, hl'], ?_⟩
    rw [memcpy_mem]
    apply at_append.mpr
    rw [hl]
    refine ⟨at_copy_apart hold (by dsimp only; omega), at_copy ?_ (Nat.le_of_eq hl')⟩
    apply at_congr h'
    intro k y hk
    have hout := hstays hc k y hk
    rw [capacity_eq A w b hc] at hout ⊢
    rw [dealloc_mem, memcpy_mem, World.obtain_mem]
    apply copy_apart
    simp only [buffer.inside] at hout
    omega
  · rw [append_stay A w src hc]
    refine ⟨by simp [hl, hl'], ?_⟩
    rw [memcpy_mem]
    apply at_append.mpr
    rw [hl]
    exact ⟨at_copy_apart h (by dsimp only; omega), at_copy h' (Nat.le_of_eq hl')⟩

end socle.membuf
