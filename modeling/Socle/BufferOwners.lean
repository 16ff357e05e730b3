-- Who owns the memory of the buffers, with and without the pool. Every function
-- of the buffer gets memory in one way and gives memory back in one way, so each
-- of them hands over, takes or returns whole pieces.
import Socle.PoolOwners
import Socle.PoolCapacity

namespace socle.membuf

open mempool lib.ledger

/-! ## Memory for a buffer -/

/-- Memory for `n` bytes, from the pool or from `new[]`. -/
def World.obtain (A : Allocator) (n : Nat) (w : World) : mem_chunk × World :=
  if w.use_pool then w.acquire A n
  else if n = 0 then ({ ptr := 0, capacity := 0 }, w)
  else ({ ptr := (w.new_array A n).1, capacity := n }, (w.new_array A n).2)

@[simp] theorem World.memcpy_zero (w : World) (dst src : Nat) : w.memcpy dst src 0 = w := by
  unfold World.memcpy
  congr
  funext a
  rw [if_neg (by omega)]

@[simp] theorem World.memcpy_pool (w : World) (dst src n : Nat) :
    (w.memcpy dst src n).pool = w.pool := rfl

@[simp] theorem World.obtain_use_pool (A : Allocator) (n : Nat) (w : World) :
    (w.obtain A n).2.use_pool = w.use_pool := by
  unfold World.obtain
  split_ifs <;> rfl

@[simp] theorem World.obtain_mem (A : Allocator) (n : Nat) (w : World) :
    (w.obtain A n).2.mem = w.mem := by
  unfold World.obtain
  split_ifs <;> rfl

theorem obtain_pool {w : World} (h : w.use_pool = true) (A : Allocator) (n : Nat) :
    w.obtain A n = w.acquire A n := by
  unfold World.obtain
  rw [if_pos h]

theorem obtain_array {w : World} (h : w.use_pool = false) (A : Allocator) {n : Nat} (hn : n ≠ 0) :
    w.obtain A n =
      ({ ptr := (w.new_array A n).1, capacity := n }, (w.new_array A n).2) := by
  unfold World.obtain
  rw [h, if_neg Bool.false_ne_true, if_neg hn]

theorem obtain_nothing {w : World} (h : w.use_pool = false) (A : Allocator) :
    w.obtain A 0 = ({ ptr := 0, capacity := 0 }, w) := by
  unfold World.obtain
  rw [h, if_neg Bool.false_ne_true, if_pos rfl]

/-- A buffer of `size` bytes in the memory `m`. -/
def buffer.inside (m : mem_chunk) (size : Nat) : buffer :=
  { data_ := m.ptr, size_ := size, capacity_ := m.capacity }

/-! ## What each function does

Each function in terms of the memory that it gets. -/

section
variable (A : Allocator) (w : World)

theorem ctor_eq (s : Nat) : ctor A s w = (.inside (w.obtain A s).1 0, (w.obtain A s).2) := by
  unfold ctor buffer.inside
  cases h : w.use_pool with
  | true => simp [obtain_pool h]
  | false =>
    by_cases hs : s = 0
    · subst hs
      simp [obtain_nothing h]
    · simp [obtain_array h A hs, hs]

theorem ctor_cap_eq {s c : Nat} (hs : s ≤ c) :
    ctor_cap A s c w = some (.inside (w.obtain A c).1 s, (w.obtain A c).2) := by
  unfold ctor_cap buffer.inside
  rw [if_neg (by omega)]
  cases h : w.use_pool with
  | true => simp [obtain_pool h]
  | false =>
    by_cases hc : c = 0
    · subst hc
      simp [obtain_nothing h]
    · simp [obtain_array h A hc, hc]

theorem ctor_bytes_eq (d : Nat) {s : Nat} (hs : s ≠ 0) :
    ctor_bytes A d s w =
      (.inside (w.obtain A s).1 s, (w.obtain A s).2.memcpy (w.obtain A s).1.ptr d s) := by
  unfold ctor_bytes buffer.inside
  rw [if_pos hs]
  cases h : w.use_pool with
  | true => simp [obtain_pool h]
  | false => simp [obtain_array h A hs]

theorem ctor_bytes_cap_eq (d : Nat) {s c : Nat} (hs : s ≤ c) (hc : c ≠ 0) :
    ctor_bytes_cap A d s c w = some
      (.inside (w.obtain A c).1 s, (w.obtain A c).2.memcpy (w.obtain A c).1.ptr d s) := by
  unfold ctor_bytes_cap buffer.inside
  rw [if_neg (by omega), if_pos hc]
  cases h : w.use_pool with
  | true => by_cases h0 : s = 0 <;> simp [obtain_pool h, h0]
  | false => by_cases h0 : s = 0 <;> simp [obtain_array h A hc, h0]

theorem copy_ctor_eq {x : buffer} (hf : x.free_ = true) (hc : x.capacity_ ≠ 0) :
    copy_ctor A x w = (.inside (w.obtain A x.capacity_).1 x.size_,
      (w.obtain A x.capacity_).2.memcpy (w.obtain A x.capacity_).1.ptr x.data_ x.size_) := by
  unfold copy_ctor buffer.inside
  simp only [if_pos hc, hf, if_true]
  cases h : w.use_pool with
  | true => by_cases h0 : x.size_ = 0 <;> simp [obtain_pool h, h, h0]
  | false => by_cases h0 : x.size_ = 0 <;> simp [obtain_array h A hc, h, h0, World.new_array]

theorem capacity_eq (b : buffer) {c : Nat} (hc : b.capacity_ < c) :
    b.capacity A c w = (true, { buffer.inside (w.obtain A c).1 b.size_ with free_ := true },
      b.dealloc ((w.obtain A c).2.memcpy (w.obtain A c).1.ptr b.data_ b.size_)) := by
  unfold buffer.capacity buffer.inside
  have hne : c ≠ 0 := by omega
  rw [if_neg (by omega)]
  cases h : w.use_pool with
  | true => by_cases h0 : b.size_ = 0 <;> simp [obtain_pool h, h, h0]
  | false =>
    by_cases h0 : b.size_ = 0 <;> simp [obtain_array h A hne, h, h0, World.new_array]

theorem copy_assign_own {b x : buffer} (hb : x.size_ > b.capacity_ ∨ b.data_ = 0)
    (hf : x.free_ = true) (hc : w.use_pool = true ∨ x.capacity_ ≠ 0) :
    b.copy_assign A x w = (.inside ((b.dealloc w).obtain A x.capacity_).1 x.size_,
      ((b.dealloc w).obtain A x.capacity_).2.memcpy
        ((b.dealloc w).obtain A x.capacity_).1.ptr x.data_ x.size_) := by
  unfold buffer.copy_assign buffer.inside
  simp only [if_pos hb, hf, if_true, and_true]
  cases h : (b.dealloc w).use_pool with
  | true => by_cases h0 : x.size_ = 0 <;> simp [obtain_pool h, h0]
  | false =>
    have hne : x.capacity_ ≠ 0 := by
      rw [buffer.dealloc_use_pool] at h
      simpa [h] using hc
    by_cases h0 : x.size_ = 0 <;> simp [obtain_array h A hne, h0, World.new_array]

theorem copy_assign_view {b x : buffer} (hb : x.size_ > b.capacity_ ∨ b.data_ = 0)
    (hf : x.free_ = false) : b.copy_assign A x w = (x, b.dealloc w) := by
  cases x
  simp only at hf
  subst hf
  simp only [buffer.copy_assign] at hb ⊢
  simp [hb]

theorem copy_assign_stay {b x : buffer} (hb : ¬ (x.size_ > b.capacity_ ∨ b.data_ = 0)) :
    b.copy_assign A x w = ({ b with size_ := x.size_ },
      if x.free_ then w.memcpy b.data_ x.data_ x.size_ else w) := by
  unfold buffer.copy_assign
  simp only [if_neg hb]
  by_cases h0 : x.size_ = 0 <;> simp [h0]

theorem assign_grow {b : buffer} (d : Nat) {s : Nat} (hs : s > b.capacity_) :
    b.assign A d s w =
      ({ buffer.inside ((b.dealloc w).obtain A s).1 s with capacity_ := s, free_ := true },
        if d ≠ 0 then ((b.dealloc w).obtain A s).2.memcpy ((b.dealloc w).obtain A s).1.ptr d s
        else ((b.dealloc w).obtain A s).2) := by
  have hne : s ≠ 0 := by omega
  unfold buffer.assign buffer.inside
  simp only [if_pos hs]
  cases h : (b.dealloc w).use_pool with
  | true => simp [obtain_pool h, hne]
  | false => simp [obtain_array h A hne, hne, World.new_array]

theorem assign_stay {b : buffer} (d : Nat) {s : Nat} (hs : ¬ s > b.capacity_) :
    b.assign A d s w =
      ({ b with size_ := s }, if d ≠ 0 then w.memcpy b.data_ d s else w) := by
  unfold buffer.assign
  simp only [if_neg hs]
  by_cases h0 : s = 0 <;> simp [h0]

theorem append_grow {b : buffer} (d : Nat) {s : Nat} (hc : b.capacity_ < b.size_ + s)
    (hs : s ≠ 0) :
    b.append A d s w = ({ (b.capacity A (b.size_ + s) w).2.1 with size_ := b.size_ + s },
      (b.capacity A (b.size_ + s) w).2.2.memcpy
        ((b.capacity A (b.size_ + s) w).2.1.data_ + b.size_) d s) := by
  unfold buffer.append
  simp only [if_pos hc, if_pos hs]
  rw [capacity_eq A w b hc]
  rfl

theorem append_stay {b : buffer} (d : Nat) {s : Nat} (hc : ¬ b.capacity_ < b.size_ + s) :
    b.append A d s w =
      ({ b with size_ := b.size_ + s }, w.memcpy (b.data_ + b.size_) d s) := by
  unfold buffer.append
  by_cases hs : s = 0
  · subst hs
    simp
  · simp only [if_neg hc, if_pos hs]

end

/-! ## What a buffer owns -/

/-- What the buffer gives back when it goes. -/
def buffer.own (b : buffer) : Multiset Nat :=
  if b.free_ then ref b.data_ else 0

/-- The buffer gives back what it owns: it does so only when it has a capacity, and without the
pool it does so with `delete[]`. -/
def buffer.Tidy (mine : Nat → Prop) (use_pool : Bool) (b : buffer) : Prop :=
  b.free_ = true → b.data_ ≠ 0 → 0 < b.capacity_ ∧ (use_pool = false → ¬ mine b.data_)

variable {ι κ : Type*} {mine : Nat → Prop} {w : World} {T : ι → Multiset Nat} {i : ι}
  {s : Multiset Nat}

theorem own_of_not_free {b : buffer} (h : b.free_ = false) : b.own = 0 := by
  simp [buffer.own, h]

theorem own_of_null {b : buffer} (h : b.data_ = 0) : b.own = 0 := by
  simp [buffer.own, h]

theorem own_of_free {b : buffer} (h : b.free_ = true) : b.own = ref b.data_ := by
  simp [buffer.own, h]

theorem tidy_of_not_free {b : buffer} {use_pool : Bool} (h : b.free_ = false) :
    b.Tidy mine use_pool := by
  intro hf
  rw [h] at hf
  cases hf

theorem tidy_of_null {b : buffer} {use_pool : Bool} (h : b.data_ = 0) : b.Tidy mine use_pool :=
  fun _ hd => absurd h hd

/-- After a function that gives buffer and world `r`, holder `i` has what the buffer owns, and `s`. -/
structure Leaves (mine : Nat → Prop) (T : ι → Multiset Nat) (i : ι) (s : Multiset Nat)
    (use_pool : Bool) [DecidableEq ι] (r : buffer × World) : Prop where
  kept : Kept mine r.2.pool (Function.update T i (r.1.own + s))
  tidy : r.1.Tidy mine use_pool
  switch : r.2.use_pool = use_pool

/-- New memory has a capacity, and `new[]` takes none from the buckets. -/
theorem obtained (h : Kept mine w.pool T) (A : Allocator) (n : Nat)
    (hne : (w.obtain A n).1.ptr ≠ 0) :
    0 < (w.obtain A n).1.capacity ∧ (w.use_pool = false → ¬ mine (w.obtain A n).1.ptr) := by
  cases hu : w.use_pool with
  | true =>
    rw [obtain_pool hu] at hne ⊢
    exact ⟨(h.acquired A n).1 hne, fun hf => by cases hf⟩
  | false =>
    by_cases hn : n = 0
    · subst hn
      rw [obtain_nothing hu] at hne
      exact absurd rfl hne
    · rw [obtain_array hu A hn]
      refine ⟨Nat.pos_of_ne_zero hn, fun _ hm => ?_⟩
      obtain ⟨id, hid⟩ := (h.mine_iff _).mp hm
      have hnot := h.toLaid.from_heap_not_mine A n id
      simp only [memPool.from_heap, World.new_array] at hnot hid
      rw [hnot] at hid
      cases hid

section
variable [DecidableEq ι]

/-- New memory goes to holder `i`. -/
theorem kept_obtain (h : Kept mine w.pool T) (A : Allocator) (n : Nat) (hi : T i = s) :
    Kept mine (w.obtain A n).2.pool (Function.update T i (ref (w.obtain A n).1.ptr + s)) := by
  cases hu : w.use_pool with
  | true =>
    rw [obtain_pool hu]
    exact h.acquire A n hi
  | false =>
    by_cases hn : n = 0
    · subst hn
      rw [obtain_nothing hu, ref_null, zero_add, ← hi, Function.update_eq_self]
      exact h
    · have hne : (w.new_array A n).1 ≠ 0 := A.place_ne_null _ _ _
      rw [obtain_array hu A hn, ref_add hne]
      exact h.grow A n hi

/-- The memory of a buffer goes back, by the pool or by `delete[]`. -/
theorem kept_give {b : buffer} (h : Kept mine w.pool T) (hi : T i = ref b.data_ + s)
    (ht : b.data_ ≠ 0 → 0 < b.capacity_ ∧ (w.use_pool = false → ¬ mine b.data_)) :
    Kept mine (if w.use_pool then w.release { ptr := b.data_, capacity := b.capacity_ }
      else w.delete_array b.data_).pool (Function.update T i s) := by
  cases hu : w.use_pool with
  | true =>
    rw [if_pos rfl]
    exact h.release hi fun hne _ => ⟨(ht hne).1, by simp⟩
  | false =>
    rw [if_neg Bool.false_ne_true]
    exact h.delete hi fun hne => (ht hne).2 hu

theorem kept_dealloc {b : buffer} (h : Kept mine w.pool T) (hi : T i = b.own + s)
    (ht : b.Tidy mine w.use_pool) : Kept mine (b.dealloc w).pool (Function.update T i s) := by
  unfold buffer.dealloc
  by_cases hf : b.free_ = true
  · rw [own_of_free hf] at hi
    by_cases hc : b.capacity_ > 0
    · rw [if_pos ⟨hf, hc⟩]
      exact kept_give h hi (ht hf)
    · have hnull : b.data_ = 0 := by
        by_contra hd
        exact hc (ht hf hd).1
      rw [if_neg fun hfc => hc hfc.2]
      rw [hnull, ref_null, zero_add] at hi
      rw [← hi, Function.update_eq_self]
      exact h
  · rw [own_of_not_free (by simpa using hf), zero_add] at hi
    rw [if_neg fun hfc => hf hfc.1, ← hi, Function.update_eq_self]
    exact h

theorem kept_drop_own {b : buffer} (h : Kept mine w.pool T) (hi : T i = b.own + s)
    (ht : b.Tidy mine w.use_pool) : Kept mine (b.drop_own w).pool (Function.update T i s) := by
  unfold buffer.drop_own
  by_cases hf : b.free_ = true ∧ b.data_ ≠ 0
  · rw [own_of_free hf.1] at hi
    rw [if_pos hf]
    exact kept_give h hi (ht hf.1)
  · have hnone : b.own = 0 := by
      by_cases hfree : b.free_ = true
      · exact own_of_null (by simpa [hfree] using hf)
      · exact own_of_not_free (by simpa using hfree)
    rw [hnone, zero_add] at hi
    rw [if_neg hf, ← hi, Function.update_eq_self]
    exact h

@[simp] theorem drop_own_use_pool (b : buffer) (w : World) :
    (b.drop_own w).use_pool = w.use_pool := by
  unfold buffer.drop_own
  split_ifs <;> rfl

/-! ## What each function leaves -/

/-- A buffer that owns nothing comes to holder `i`. -/
theorem leaves_nothing (h : Kept mine w.pool T) (hi : T i = s) {b : buffer} (hb : b.own = 0)
    (ht : b.Tidy mine w.use_pool) : Leaves mine T i s w.use_pool (b, w) := by
  refine ⟨?_, ht, rfl⟩
  rw [hb, zero_add, ← hi, Function.update_eq_self]
  exact h

/-- The buffer has the memory that it had. -/
theorem leaves_self (h : Kept mine w.pool T) {b : buffer} (hi : T i = b.own + s)
    (ht : b.Tidy mine w.use_pool) : Leaves mine T i s w.use_pool (b, w) := by
  refine ⟨?_, ht, rfl⟩
  rw [← hi, Function.update_eq_self]
  exact h

/-- A buffer that has another size. -/
theorem Leaves.resize {use_pool : Bool} {b : buffer} (h : Leaves mine T i s use_pool (b, w))
    (n : Nat) : Leaves mine T i s use_pool ({ b with size_ := n }, w) :=
  ⟨h.kept, h.tidy, h.switch⟩

/-- The buffer has new memory. -/
theorem leaves_obtained (h : Kept mine w.pool T) (hi : T i = s) (A : Allocator) (n : Nat)
    {b : buffer} (hd : b.data_ = (w.obtain A n).1.ptr)
    (hc : (w.obtain A n).1.ptr ≠ 0 → 0 < b.capacity_) (hf : b.free_ = true) :
    Leaves mine T i s w.use_pool (b, (w.obtain A n).2) := by
  refine ⟨?_, ?_, w.obtain_use_pool A n⟩
  · rw [own_of_free hf, hd]
    exact kept_obtain h A n hi
  · intro _ hne
    rw [hd] at hne ⊢
    exact ⟨hc hne, (obtained h A n hne).2⟩

theorem leaves_inside (h : Kept mine w.pool T) (hi : T i = s) (A : Allocator) (n size : Nat) :
    Leaves mine T i s w.use_pool (.inside (w.obtain A n).1 size, (w.obtain A n).2) :=
  leaves_obtained h hi A n rfl (fun hne => (obtained h A n hne).1) rfl

theorem Leaves.memcpy {use_pool : Bool} {b : buffer} (h : Leaves mine T i s use_pool (b, w))
    (dst src n : Nat) : Leaves mine T i s use_pool (b, w.memcpy dst src n) :=
  ⟨h.kept, h.tidy, h.switch⟩

/-- A function that gives its old memory back first. -/
theorem Leaves.after_give {use_pool : Bool} {r : buffer × World}
    (h : Leaves mine (Function.update T i s) i s use_pool r) : Leaves mine T i s use_pool r := by
  refine ⟨?_, h.tidy, h.switch⟩
  have hk := h.kept
  rwa [Function.update_idem] at hk

variable (A : Allocator)

theorem ctor_leaves (h : Kept mine w.pool T) (hi : T i = s) (n : Nat) :
    Leaves mine T i s w.use_pool (ctor A n w) := by
  rw [ctor_eq]
  exact leaves_inside h hi A n 0

theorem ctor_cap_leaves (h : Kept mine w.pool T) (hi : T i = s) {n c : Nat} {r : buffer × World}
    (hr : ctor_cap A n c w = some r) : Leaves mine T i s w.use_pool r := by
  by_cases hn : n ≤ c
  · rw [ctor_cap_eq A w hn] at hr
    cases hr
    exact leaves_inside h hi A c n
  · unfold ctor_cap at hr
    rw [if_pos (by omega)] at hr
    cases hr

theorem ctor_bytes_leaves (h : Kept mine w.pool T) (hi : T i = s) (d n : Nat) :
    Leaves mine T i s w.use_pool (ctor_bytes A d n w) := by
  by_cases hn : n = 0
  · subst hn
    exact leaves_nothing h hi (own_of_null rfl) (tidy_of_null rfl)
  · rw [ctor_bytes_eq A w d hn]
    exact (leaves_inside h hi A n n).memcpy _ _ _

theorem ctor_bytes_cap_leaves (h : Kept mine w.pool T) (hi : T i = s) {d n c : Nat}
    {r : buffer × World} (hr : ctor_bytes_cap A d n c w = some r) :
    Leaves mine T i s w.use_pool r := by
  by_cases hn : n ≤ c
  · by_cases hc : c = 0
    · subst hc
      unfold ctor_bytes_cap at hr
      rw [if_neg (by omega), if_neg (by simp)] at hr
      cases hr
      exact leaves_nothing h hi (own_of_null rfl) (tidy_of_null rfl)
    · rw [ctor_bytes_cap_eq A w d hn hc] at hr
      cases hr
      exact (leaves_inside h hi A c n).memcpy _ _ _
  · unfold ctor_bytes_cap at hr
    rw [if_pos (by omega)] at hr
    cases hr

theorem copy_ctor_leaves (h : Kept mine w.pool T) (hi : T i = s) (x : buffer) :
    Leaves mine T i s w.use_pool (copy_ctor A x w) := by
  by_cases hc : x.capacity_ = 0
  · have hcopy : ∃ b : buffer, b.data_ = 0 ∧ copy_ctor A x w = (b, w) := by
      unfold copy_ctor
      simp [hc]
    obtain ⟨b, hb, heq⟩ := hcopy
    rw [heq]
    exact leaves_nothing h hi (own_of_null hb) (tidy_of_null hb)
  · cases hf : x.free_ with
    | true =>
      rw [copy_ctor_eq A w hf hc]
      exact (leaves_inside h hi A x.capacity_ x.size_).memcpy _ _ _
    | false =>
      have hcopy : ∃ b : buffer, b.free_ = false ∧ copy_ctor A x w = (b, w) := by
        unfold copy_ctor
        simp [hc, hf]
      obtain ⟨b, hb, heq⟩ := hcopy
      rw [heq]
      exact leaves_nothing h hi (own_of_not_free hb) (tidy_of_not_free hb)

/-- An owner without memory is not copied by `new[]`, which would give memory without a capacity. -/
def CopiesMemory (b x : buffer) (use_pool : Bool) : Prop :=
  (x.size_ > b.capacity_ ∨ b.data_ = 0) → x.free_ = true → use_pool = true ∨ x.capacity_ ≠ 0

theorem copy_assign_leaves (h : Kept mine w.pool T) {b x : buffer} (hi : T i = b.own + s)
    (ht : b.Tidy mine w.use_pool) (hx : CopiesMemory b x w.use_pool) :
    Leaves mine T i s w.use_pool (b.copy_assign A x w) := by
  have hd := kept_dealloc h hi ht
  have hself : Function.update T i s i = s := Function.update_self ..
  by_cases hb : x.size_ > b.capacity_ ∨ b.data_ = 0
  · rw [← b.dealloc_use_pool w]
    apply Leaves.after_give
    cases hf : x.free_ with
    | true =>
      rw [copy_assign_own A w hb hf (hx hb hf)]
      exact (leaves_inside hd hself A x.capacity_ x.size_).memcpy _ _ _
    | false =>
      rw [copy_assign_view A w hb hf]
      exact leaves_nothing hd hself (own_of_not_free hf) (tidy_of_not_free hf)
  · rw [copy_assign_stay A w hb]
    have hsame := (leaves_self h hi ht).resize x.size_
    split
    · exact hsame.memcpy _ _ _
    · exact hsame

theorem assign_leaves (h : Kept mine w.pool T) {b : buffer} (hi : T i = b.own + s)
    (ht : b.Tidy mine w.use_pool) (d n : Nat) :
    Leaves mine T i s w.use_pool (b.assign A d n w) := by
  have hd := kept_dealloc h hi ht
  have hself : Function.update T i s i = s := Function.update_self ..
  by_cases hn : n > b.capacity_
  · rw [← b.dealloc_use_pool w, assign_grow A w d hn]
    apply Leaves.after_give
    have hnew := leaves_obtained hd hself A n (b := { buffer.inside
      ((b.dealloc w).obtain A n).1 n with capacity_ := n, free_ := true }) rfl
      (fun _ => Nat.zero_lt_of_lt hn) rfl
    split
    · exact hnew.memcpy _ _ _
    · exact hnew
  · rw [assign_stay A w d hn]
    have hsame := (leaves_self h hi ht).resize n
    split
    · exact hsame.memcpy _ _ _
    · exact hsame

/-- `capacity` gets new memory before it gives the old memory back, so for a while the holder has
both. -/
theorem capacity_leaves (h : Kept mine w.pool T) {b : buffer} (hi : T i = b.own + s)
    (ht : b.Tidy mine w.use_pool) (c : Nat) :
    Leaves mine T i s w.use_pool (b.capacity A c w).2 := by
  by_cases hc : b.capacity_ < c
  · rw [capacity_eq A w b hc]
    have hnew := leaves_inside h hi A c b.size_
    have hboth := hnew.kept
    rw [add_left_comm] at hboth
    have hgive := kept_dealloc (w := (w.obtain A c).2.memcpy (w.obtain A c).1.ptr b.data_ b.size_)
      (b := b) hboth (Function.update_self ..) (by simpa using ht)
    rw [Function.update_idem] at hgive
    exact ⟨hgive, hnew.tidy, by simp⟩
  · unfold buffer.capacity
    rw [if_pos (by omega)]
    exact leaves_self h hi ht

theorem size_leaves (h : Kept mine w.pool T) {b : buffer} (hi : T i = b.own + s)
    (ht : b.Tidy mine w.use_pool) (n : Nat) :
    Leaves mine T i s w.use_pool (b.size A n w).2 := by
  unfold buffer.size
  by_cases hn : b.capacity_ < n
  · simp only [if_pos hn]
    exact (capacity_leaves A h hi ht n).resize n
  · simp only [if_neg hn]
    exact (leaves_self h hi ht).resize n

theorem flush_leaves (h : Kept mine w.pool T) {b : buffer} (hi : T i = b.own + s)
    (ht : b.Tidy mine w.use_pool) (n : Nat) : Leaves mine T i s w.use_pool (b.flush n w) := by
  unfold buffer.flush
  split
  · exact (leaves_self h hi ht).resize 0
  · exact ((leaves_self h hi ht).resize _).memcpy _ _ _

theorem append_leaves (h : Kept mine w.pool T) {b : buffer} (hi : T i = b.own + s)
    (ht : b.Tidy mine w.use_pool) (d n : Nat) :
    Leaves mine T i s w.use_pool (b.append A d n w) := by
  by_cases hc : b.capacity_ < b.size_ + n
  · by_cases hn : n = 0
    · subst hn
      unfold buffer.append
      rw [if_neg (by simp)]
      exact leaves_self h hi ht
    · rw [append_grow A w d hc hn]
      exact ((capacity_leaves A h hi ht (b.size_ + n)).resize _).memcpy _ _ _
  · rw [append_stay A w d hc]
    exact ((leaves_self h hi ht).resize _).memcpy _ _ _

end

/-! ## The steps -/

/-- What each holder has to give back. -/
def State.held (st : State) : holder → Multiset Nat
  | .buf i => (st.bufs i).elim 0 buffer.own
  | .var v => (st.vars v).elim 0 fun c => ref c.ptr

/-- The buffers, what is held by hand, and the other holders, who have `R`, own the memory. -/
structure Owned (mine : Nat → Prop) (use_pool : Bool) (R : κ → Multiset Nat) (st : State) :
    Prop where
  kept : Kept mine st.w.pool (Sum.elim st.held R)
  switch : st.w.use_pool = use_pool
  tidy : ∀ i b, st.bufs i = some b → b.Tidy mine st.w.use_pool
  returns : ∀ v c, st.vars v = some c → Returns mine c

/-- Memory of `c` bytes can be taken over by a buffer that will give it back. -/
def TakesOver (st : State) (m : mem_chunk) (c : Nat) : Prop :=
  m.ptr ≠ 0 → 0 < c ∧ (st.w.use_pool = false → ¬ st.w.pool.Mine m.ptr)

/-- A call after which everything that is owned can be given back. -/
def GivesBack (st : State) : op → Prop
  | .ctor_own _ v _ c | .assign_own _ v _ c | .attach _ v c =>
    ∀ m ∈ st.vars v, TakesOver st m c
  | .copy_assign i j => i ≠ j → ∀ b ∈ st.bufs i, ∀ x ∈ st.bufs j, CopiesMemory b x st.w.use_pool
  | _ => True

instance (st : State) (m : mem_chunk) (c : Nat) : Decidable (TakesOver st m c) :=
  inferInstanceAs (Decidable (_ → _))

instance (b x : buffer) (use_pool : Bool) : Decidable (CopiesMemory b x use_pool) :=
  inferInstanceAs (Decidable (_ → _ → _))

instance (st : State) : (o : op) → Decidable (GivesBack st o)
  | .ctor_own _ v _ c | .assign_own _ v _ c | .attach _ v c =>
    inferInstanceAs (Decidable (∀ m ∈ st.vars v, TakesOver st m c))
  | .copy_assign i j =>
    inferInstanceAs (Decidable (i ≠ j → ∀ b ∈ st.bufs i, ∀ x ∈ st.bufs j,
      CopiesMemory b x st.w.use_pool))
  | .acquire .. | .release _ | .ctor .. | .ctor_cap .. | .ctor_bytes .. | .ctor_bytes_cap ..
  | .ctor_view .. | .copy_ctor .. | .move_ctor .. | .dtor _ | .move_assign .. | .swap ..
  | .detach .. | .assign .. | .assign_view .. | .capacity .. | .size .. | .clear _ | .flush ..
  | .append .. | .append_buffer .. => inferInstanceAs (Decidable True)

open State

variable {R : κ → Multiset Nat} {st : State} {use_pool : Bool}

theorem held_set (st : State) (i : Nat) (r : buffer × World) :
    (st.set i r).held = Function.update st.held (.buf i) r.1.own := by
  funext j
  cases j with
  | buf k =>
    by_cases hk : k = i
    · subst hk
      simp [held, State.set]
    · simp [held, State.set, hk]
  | var v => simp [held, State.set]

theorem held_hold (st : State) (v : Nat) (c : Option mem_chunk) :
    (st.hold v c).held = Function.update st.held (.var v) (c.elim 0 fun c => ref c.ptr) := by
  funext j
  cases j with
  | buf k => simp [held, hold]
  | var u =>
    by_cases hu : u = v
    · subst hu
      simp [held, hold]
    · simp [held, hold, hu]

theorem held_drop (st : State) (i : Nat) (w : World) :
    { st with w, bufs := Function.update st.bufs i none }.held =
      Function.update st.held (.buf i) 0 := by
  funext j
  cases j with
  | buf k =>
    by_cases hk : k = i
    · subst hk
      simp [held]
    · simp [held, hk]
  | var v => simp [held]

theorem held_buf {i : Nat} {b : buffer} (h : st.bufs i = some b) :
    Sum.elim st.held R (.inl (.buf i)) = b.own + 0 := by
  simp [held, h]

theorem held_fresh {i : Nat} (h : st.bufs i = none) :
    Sum.elim st.held R (.inl (.buf i)) = 0 := by
  simp [held, h]

theorem held_var {v : Nat} {m : mem_chunk} (h : st.vars v = some m) :
    Sum.elim st.held R (.inl (.var v)) = ref m.ptr + 0 := by
  simp [held, h]

section
variable [DecidableEq κ]

/-- Buffer `i` has what a function left. -/
theorem owned_set {i : Nat} {r : buffer × World} (h : Owned mine use_pool R st)
    (hr : Leaves mine (Sum.elim st.held R) (.inl (.buf i)) 0 st.w.use_pool r) :
    Owned mine use_pool R (st.set i r) where
  kept := by
    have hk := hr.kept
    rw [add_zero] at hk
    rw [held_set, ← Sum.update_elim_inl]
    exact hk
  switch := hr.switch.trans h.switch
  tidy := by
    intro k b hb
    simp only [State.set] at hb ⊢
    rw [hr.switch]
    rcases update_eq_some.mp hb with ⟨rfl, hgot⟩ | ⟨-, hb⟩
    · cases hgot
      exact hr.tidy
    · exact h.tidy k b hb
  returns := h.returns

/-- Buffer `i`, which owns nothing any more, takes over the memory of `v`. -/
theorem owned_take_over {w : World} {i v : Nat} {m : mem_chunk} {b : buffer}
    (h : Owned mine use_pool R st)
    (hk : Kept mine w.pool (Function.update (Sum.elim st.held R) (.inl (.buf i)) 0))
    (hu : w.use_pool = st.w.use_pool) (hv : st.vars v = some m) (hf : b.free_ = true)
    (hd : b.data_ = m.ptr) (ht : TakesOver st m b.capacity_) :
    Owned mine use_pool R ((st.set i (b, w)).hold v none) where
  kept := by
    rw [held_hold, held_set, ← Sum.update_elim_inl, ← Sum.update_elim_inl,
      Function.update_comm (by simp), own_of_free hf, hd]
    have hvar : Function.update (Sum.elim st.held R) (.inl (.buf i)) 0 (.inl (.var v)) =
        ref m.ptr + 0 := by
      rw [Function.update_of_ne (by simp), held_var hv]
    have hpass := hk.pass (i := .inl (.buf i)) (by simp) hvar
    rw [Function.update_self, add_zero, Function.update_comm (by simp),
      Function.update_idem] at hpass
    rwa [Function.update_comm (by simp)]
  switch := hu.trans h.switch
  tidy := by
    intro k c hc
    simp only [State.set, State.hold] at hc ⊢
    rw [hu]
    rcases update_eq_some.mp hc with ⟨rfl, hgot⟩ | ⟨-, hc⟩
    · cases hgot
      intro _ hne
      rw [hd] at hne ⊢
      obtain ⟨hcap, hm⟩ := ht hne
      refine ⟨hcap, fun hfalse hmine => hm hfalse ?_⟩
      exact (h.kept.mine_iff _).mp hmine
    · exact h.tidy k c hc
  returns := by
    intro u c hc
    simp only [State.set, State.hold] at hc
    obtain ⟨-, hc⟩ := update_none_eq_some.mp hc
    exact h.returns u c hc

/-- Buffer `i`, which owns nothing any more, becomes what buffer `j` was, and `j` owns nothing
from then on. -/
theorem owned_move {w : World} {i j : Nat} {x x' : buffer} (h : Owned mine use_pool R st)
    (hk : Kept mine w.pool (Function.update (Sum.elim st.held R) (.inl (.buf i)) 0))
    (hu : w.use_pool = st.w.use_pool) (hx : st.bufs j = some x) (hij : i ≠ j)
    (hf : x'.free_ = false) : Owned mine use_pool R ((st.set j (x', w)).set i (x, w)) where
  kept := by
    have hne : (Sum.inl (holder.buf i) : holder ⊕ κ) ≠ .inl (.buf j) := by
      simpa using hij
    rw [held_set, held_set, ← Sum.update_elim_inl, ← Sum.update_elim_inl, own_of_not_free hf]
    have hbuf : Function.update (Sum.elim st.held R) (.inl (.buf i)) 0 (.inl (.buf j)) =
        x.own + 0 := by
      rw [Function.update_of_ne hne.symm, held_buf hx]
    have hpass := hk.pass hne hbuf
    rwa [Function.update_self, add_zero, Function.update_comm hne, Function.update_idem] at hpass
  switch := hu.trans h.switch
  tidy := by
    intro k c hc
    simp only [State.set] at hc ⊢
    rw [hu]
    rcases update_eq_some.mp hc with ⟨rfl, hgot⟩ | ⟨-, hc⟩
    · cases hgot
      exact h.tidy j x hx
    rcases update_eq_some.mp hc with ⟨rfl, hgot⟩ | ⟨-, hc⟩
    · cases hgot
      exact tidy_of_not_free hf
    · exact h.tidy k c hc
  returns := h.returns

/-- Two buffers change places. -/
theorem owned_swap {i j : Nat} {b x : buffer} (h : Owned mine use_pool R st) (hb : st.bufs i = some b)
    (hx : st.bufs j = some x) :
    Owned mine use_pool R ((st.set i ((b.swap x).1, st.w)).set j ((b.swap x).2, st.w)) where
  kept := by
    have hrename := h.kept.rename (Equiv.swap (.inl (.buf i)) (.inl (.buf j)))
    have heq : (Sum.elim ((st.set i ((b.swap x).1, st.w)).set j ((b.swap x).2, st.w)).held R) =
        fun k => Sum.elim st.held R (Equiv.swap (.inl (.buf i)) (.inl (.buf j)) k) := by
      rw [held_set, held_set, ← Sum.update_elim_inl, ← Sum.update_elim_inl]
      funext k
      by_cases hkj : k = .inl (.buf j)
      · subst hkj
        rw [Function.update_self, Equiv.swap_apply_right, held_buf hb, add_zero]
        rfl
      rw [Function.update_of_ne hkj]
      by_cases hki : k = .inl (.buf i)
      · subst hki
        rw [Function.update_self, Equiv.swap_apply_left, held_buf hx, add_zero]
        rfl
      · rw [Function.update_of_ne hki, Equiv.swap_apply_of_ne_of_ne hki hkj]
    rw [heq]
    exact hrename
  switch := h.switch
  tidy := by
    intro k c hc
    simp only [State.set] at hc ⊢
    rcases update_eq_some.mp hc with ⟨rfl, hgot⟩ | ⟨-, hc⟩
    · cases hgot
      exact h.tidy i b hb
    rcases update_eq_some.mp hc with ⟨rfl, hgot⟩ | ⟨-, hc⟩
    · cases hgot
      exact h.tidy j x hx
    · exact h.tidy k c hc
  returns := h.returns

/-- Whoever detaches the memory of a buffer has to give back what the buffer owned. -/
theorem elim_owned (b : buffer) : (b.owned.elim 0 fun c => ref c.ptr) = b.own := by
  unfold buffer.owned buffer.own real
  by_cases hf : b.free_ = true
  · by_cases hd : b.data_ = 0
    · simp [hd]
    · simp [hf, hd]
  · simp [hf]

theorem owned_detach {i v : Nat} {b : buffer} (h : Owned mine use_pool R st) (hb : st.bufs i = some b)
    (hv : st.vars v = none) : Owned mine use_pool R ((st.set i (b.detach.2, st.w)).hold v b.owned) where
  kept := by
    have hne : (Sum.inl (holder.var v) : holder ⊕ κ) ≠ .inl (.buf i) := by simp
    have hnone : Sum.elim st.held R (.inl (.var v)) = 0 := by simp [held, hv]
    have hpass := h.kept.pass hne (held_buf hb)
    rw [hnone, add_zero] at hpass
    rw [held_hold, held_set, elim_owned, own_of_null (b := b.detach.2) rfl,
      ← Sum.update_elim_inl, ← Sum.update_elim_inl]
    exact hpass
  switch := h.switch
  tidy := by
    intro k c hc
    simp only [State.set, State.hold] at hc ⊢
    rcases update_eq_some.mp hc with ⟨rfl, hgot⟩ | ⟨-, hc⟩
    · cases hgot
      exact tidy_of_null rfl
    · exact h.tidy k c hc
  returns := by
    intro u c hc
    simp only [State.set, State.hold] at hc
    rcases update_eq_some.mp hc with ⟨rfl, hgot⟩ | ⟨-, hc⟩
    · obtain ⟨rfl, hf, hne⟩ := owned_some hgot
      exact fun _ _ => ⟨(h.tidy i b hb hf hne).1, by simp⟩
    · exact h.returns u c hc

/-- The pool did something for the chunk of `v`. -/
theorem owned_hold {w : World} {v : Nat} {c : Option mem_chunk} (h : Owned mine use_pool R st)
    (hk : Kept mine w.pool (Function.update (Sum.elim st.held R) (.inl (.var v))
      (c.elim 0 fun c => ref c.ptr)))
    (hu : w.use_pool = st.w.use_pool) (hc : ∀ m, c = some m → Returns mine m) :
    Owned mine use_pool R ({ st with w }.hold v c) where
  kept := by
    rw [held_hold, ← Sum.update_elim_inl]
    exact hk
  switch := hu.trans h.switch
  tidy := by
    intro k b hb
    simp only [State.hold] at hb ⊢
    rw [hu]
    exact h.tidy k b hb
  returns := by
    intro u m hm
    simp only [State.hold] at hm
    rcases update_eq_some.mp hm with ⟨rfl, hgot⟩ | ⟨-, hm⟩
    · exact hc m hgot
    · exact h.returns u m hm

/-- A call keeps the owners in order. -/
theorem owned_step (A : Allocator) {st st' : State} {o : op} (h : Owned mine use_pool R st)
    (hg : GivesBack st o) (hs : step A st o = some st') : Owned mine use_pool R st' := by
  have hzero : ∀ {i : Nat} {b : buffer}, st.bufs i = some b →
      Kept mine (b.dealloc st.w).pool
        (Function.update (Sum.elim st.held R) (.inl (.buf i)) 0) :=
    fun hb => kept_dealloc h.kept (held_buf hb) (h.tidy _ _ hb)
  have hfresh : ∀ {i : Nat}, st.bufs i = none → Kept mine st.w.pool
      (Function.update (Sum.elim st.held R) (.inl (.buf i)) 0) := by
    intro i hi
    rw [← held_fresh (R := R) hi, Function.update_eq_self]
    exact h.kept
  cases o <;>
    simp only [step, Option.bind_eq_bind, Option.pure_def, Option.bind_eq_some_iff,
      Option.some.injEq, fresh_some, unheld_some, exists_const] at hs
  case acquire v n =>
    obtain ⟨hv, rfl⟩ := hs
    have hnone : Sum.elim st.held R (.inl (.var v)) = 0 := by simp [held, hv]
    have hk := h.kept.acquire A n hnone
    rw [add_zero] at hk
    refine owned_hold (w := (st.w.acquire A n).2) h hk rfl ?_
    intro m hm
    cases hm
    exact (h.kept.acquired A n).2
  case release v =>
    obtain ⟨c, hc, rfl⟩ := hs
    refine owned_hold (w := st.w.release c) h ?_ rfl (fun m hm => by cases hm)
    exact h.kept.release (held_var hc) (h.returns v c hc)
  case ctor i n =>
    obtain ⟨hi, rfl⟩ := hs
    exact owned_set h (ctor_leaves A h.kept (held_fresh hi) n)
  case ctor_cap i n c =>
    obtain ⟨hi, r, hr, rfl⟩ := hs
    exact owned_set h (ctor_cap_leaves A h.kept (held_fresh hi) hr)
  case ctor_bytes i d n =>
    obtain ⟨hi, rfl⟩ := hs
    exact owned_set h (ctor_bytes_leaves A h.kept (held_fresh hi) d n)
  case ctor_bytes_cap i d n c =>
    obtain ⟨hi, r, hr, rfl⟩ := hs
    exact owned_set h (ctor_bytes_cap_leaves A h.kept (held_fresh hi) hr)
  case ctor_view i d n c =>
    obtain ⟨hi, b, hb, rfl⟩ := hs
    rw [ctor_own_some hb]
    exact owned_set h (leaves_nothing h.kept (held_fresh hi) (own_of_not_free rfl)
      (tidy_of_not_free rfl))
  case ctor_own i v n c =>
    obtain ⟨hi, m, hm, b, hb, rfl⟩ := hs
    rw [ctor_own_some hb]
    exact owned_take_over h (hfresh hi) rfl hm rfl rfl (hg m hm)
  case copy_ctor i j =>
    obtain ⟨hi, x, -, rfl⟩ := hs
    exact owned_set h (copy_ctor_leaves A h.kept (held_fresh hi) x)
  case move_ctor i j =>
    obtain ⟨hi, x, hx, rfl⟩ := hs
    have hij : i ≠ j := by
      rintro rfl
      rw [hi] at hx
      cases hx
    exact owned_move h (hfresh hi) rfl hx hij rfl
  case dtor i =>
    obtain ⟨b, hb, rfl⟩ := hs
    refine ⟨?_, (b.dealloc_use_pool st.w).trans h.switch, ?_, h.returns⟩
    · rw [held_drop, ← Sum.update_elim_inl]
      exact hzero hb
    · intro k c hc
      simp only [buffer.release, buffer.dealloc_use_pool] at hc ⊢
      obtain ⟨-, hc⟩ := update_none_eq_some.mp hc
      exact h.tidy k c hc
  case copy_assign i j =>
    obtain ⟨b, hb, x, hx, rfl⟩ := hs
    split
    · exact h
    · rename_i hij
      exact owned_set h (copy_assign_leaves A h.kept (held_buf hb) (h.tidy i b hb)
        (hg hij b hb x hx))
  case move_assign i j =>
    obtain ⟨b, hb, x, hx, hs⟩ := hs
    have hd := kept_drop_own h.kept (held_buf (R := R) hb) (h.tidy i b hb)
    split at hs
    · cases hs
      apply owned_set h
      rw [← drop_own_use_pool b st.w]
      apply Leaves.after_give
      exact leaves_nothing hd (Function.update_self ..) (own_of_not_free rfl)
        (tidy_of_not_free rfl)
    · rename_i hij
      cases hs
      exact owned_move h hd (drop_own_use_pool b st.w) hx hij rfl
  case swap i j =>
    obtain ⟨b, hb, x, hx, rfl⟩ := hs
    exact owned_swap h hb hx
  case detach i v =>
    obtain ⟨b, hb, hv, rfl⟩ := hs
    exact owned_detach h hb hv
  case assign i d n =>
    obtain ⟨b, hb, rfl⟩ := hs
    exact owned_set h (assign_leaves A h.kept (held_buf hb) (h.tidy i b hb) d n)
  case assign_view i d n c =>
    obtain ⟨b, hb, rfl⟩ := hs
    apply owned_set h
    rw [← b.dealloc_use_pool st.w]
    apply Leaves.after_give
    exact leaves_nothing (hzero hb) (Function.update_self ..) (own_of_not_free rfl)
      (tidy_of_not_free rfl)
  case assign_own i v n c =>
    obtain ⟨b, hb, m, hm, rfl⟩ := hs
    exact owned_take_over h (hzero hb) (b.dealloc_use_pool st.w) hm rfl rfl (hg m hm)
  case attach i v n =>
    obtain ⟨b, hb, m, hm, rfl⟩ := hs
    exact owned_take_over h (hzero hb) (b.dealloc_use_pool st.w) hm rfl rfl (hg m hm)
  case capacity i c =>
    obtain ⟨b, hb, rfl⟩ := hs
    exact owned_set h (capacity_leaves A h.kept (held_buf hb) (h.tidy i b hb) c)
  case size i n =>
    obtain ⟨b, hb, rfl⟩ := hs
    exact owned_set h (size_leaves A h.kept (held_buf hb) (h.tidy i b hb) n)
  case clear i =>
    obtain ⟨b, hb, rfl⟩ := hs
    exact owned_set h ((leaves_self h.kept (held_buf hb) (h.tidy i b hb)).resize 0)
  case flush i n =>
    obtain ⟨b, hb, rfl⟩ := hs
    exact owned_set h (flush_leaves h.kept (held_buf hb) (h.tidy i b hb) n)
  case append i d n =>
    obtain ⟨b, hb, rfl⟩ := hs
    exact owned_set h (append_leaves A h.kept (held_buf hb) (h.tidy i b hb) d n)
  case append_buffer i j =>
    obtain ⟨b, hb, x, -, rfl⟩ := hs
    exact owned_set h (append_leaves A h.kept (held_buf hb) (h.tidy i b hb) x.data_ x.size_)

end

end socle.membuf
