-- The law of the buffers, with the pool and without it. In a run whose calls do
-- what they should, a buffer never has more bytes than room, each piece of memory
-- has one owner and goes back once, and each buffer says what its byte list says.
import Socle.BufferLists

namespace socle.membuf

open mempool lib.ledger lib.known lib.run

variable {κ : Type*} {mine : Nat → Prop} {R : κ → Multiset Nat} {use_pool : Bool} {st : Told}
  {after : State} {o : call}

/-! ## Memory of their own -/

/-- The buffer owns its memory, or it has none and gets memory of its own for its next byte. -/
def buffer.Owner (b : buffer) : Prop :=
  b.free_ = true ∨ b.capacity_ = 0

/-- The buffer owns its memory now, or it owns what it owned. -/
def buffer.Grows (b b' : buffer) : Prop :=
  b'.free_ = true ∨ (b'.free_ = b.free_ ∧ b'.capacity_ = b.capacity_)

/-- Each buffer that should have memory of its own has it. -/
def Told.Owns (st : Told) : Prop :=
  ∀ i b, st.code.bufs i = some b → st.own i = true → b.Owner

theorem buffer.Grows.owner {b b' : buffer} (h : b.Grows b') (hb : b.Owner) : b'.Owner := by
  rcases h with hf | ⟨hf, hc⟩
  · exact Or.inl hf
  · unfold buffer.Owner
    rw [hf, hc]
    exact hb

section
variable (A : Allocator) {w : World} {b x : buffer} {n : Nat}

theorem capacity_grows : b.Grows (b.capacity A n w).2.1 := by
  by_cases hc : b.capacity_ < n
  · rw [capacity_eq A w b hc]
    exact Or.inl rfl
  · rw [capacity_stay A hc]
    exact Or.inr ⟨rfl, rfl⟩

theorem size_grows : b.Grows (b.size A n w).2.1 := by
  unfold buffer.size
  by_cases hc : b.capacity_ < n
  · simp only [if_pos hc]
    exact capacity_grows A
  · simp only [if_neg hc]
    exact Or.inr ⟨rfl, rfl⟩

theorem flush_grows : b.Grows (b.flush n w).1 := by
  unfold buffer.flush
  split <;> exact Or.inr ⟨rfl, rfl⟩

theorem append_grows (d : Nat) : b.Grows (b.append A d n w).1 := by
  by_cases hn : n = 0
  · subst hn
    exact Or.inr ⟨rfl, rfl⟩
  by_cases hc : b.capacity_ < b.size_ + n
  · rw [append_grow A w d hc hn]
    exact capacity_grows A
  · rw [append_stay A w d hc]
    exact Or.inr ⟨rfl, rfl⟩

theorem assign_grows (d : Nat) : b.Grows (b.assign A d n w).1 := by
  by_cases hn : n > b.capacity_
  · rw [assign_grow A w d hn]
    exact Or.inl rfl
  · rw [assign_stay A w d hn]
    exact Or.inr ⟨rfl, rfl⟩

/-- A copy of an owner is an owner. -/
theorem copy_ctor_owner (hx : x.Owner) : (copy_ctor A x w).1.Owner := by
  by_cases hc : x.capacity_ = 0
  · right
    simp [copy_ctor, hc]
  · exact Or.inl (hx.resolve_right hc)

/-- So is a buffer to which an owner was assigned, unless it got nothing. -/
theorem copy_assign_owner (hs : CopiesInto b x w) (hx : x.Owner) (hsize : x.size_ ≤ x.capacity_)
    (hb : x.size_ = 0 → b.Owner) : (b.copy_assign A x w).1.Owner := by
  unfold CopiesInto at hs
  by_cases hg : x.size_ > b.capacity_ ∨ b.data_ = 0
  · rw [if_pos hg] at hs
    cases hf : x.free_ with
    | true =>
      rw [copy_assign_own A w hg hf (hs hf).1]
      exact Or.inl rfl
    | false =>
      rw [copy_assign_view A w hg hf]
      exact hx
  · rw [if_neg hg] at hs
    rw [copy_assign_stay A w hg]
    by_cases hn : x.size_ = 0
    · exact hb hn
    · have hc : x.capacity_ ≠ 0 := by omega
      have hown := hs.resolve_left hn
      rw [if_pos (hx.resolve_right hc)] at hown
      exact Or.inl hown

end

/-- A call that changes one buffer. -/
theorem owns_one (hs : st.Owns) {i : Nat} {b : buffer} {f : Bool}
    (hbufs : after.bufs = Function.update st.code.bufs i (some b))
    (ho : owns st o = Function.update st.own i f) (hf : f = true → b.Owner) :
    ∀ k x, after.bufs k = some x → owns st o k = true → x.Owner := by
  intro k x hx hk
  rw [hbufs] at hx
  rw [ho] at hk
  rcases update_eq_some.mp hx with ⟨rfl, hgot⟩ | ⟨hki, hx⟩
  · cases hgot
    rw [Function.update_self] at hk
    exact hf hk
  · rw [Function.update_of_ne hki] at hk
    exact hs k x hx hk

/-- A call that leaves the buffers alone, or ends one. -/
theorem owns_nothing (hs : st.Owns) (hbufs : ∀ k x, after.bufs k = some x →
      st.code.bufs k = some x) (ho : owns st o = st.own) :
    ∀ k x, after.bufs k = some x → owns st o k = true → x.Owner := by
  intro k x hx hk
  rw [ho] at hk
  exact hs k x (hbufs k x hx) hk

/-- A call after which buffer `i` owns its memory if it owned it before. -/
theorem owns_grows (hs : st.Owns) {i : Nat} {b b' : buffer} (hb : st.code.bufs i = some b)
    (hbufs : after.bufs = Function.update st.code.bufs i (some b')) (ho : owns st o = st.own)
    (hg : b.Grows b') : ∀ k x, after.bufs k = some x → owns st o k = true → x.Owner := by
  refine owns_one (f := st.own i) hs hbufs ?_ fun hown => hg.owner (hs i b hb hown)
  rw [ho, Function.update_eq_self]

/-- A call after which buffer `i` is what buffer `j` was. -/
theorem owns_move (hs : st.Owns) {i j : Nat} {x : buffer} {w : World}
    (hx : st.code.bufs j = some x)
    (hafter : after = (st.code.set j ({ x with free_ := false }, w)).set i (x, w))
    (ho : owns st o = Function.update (Function.update st.own j false) i (st.own j)) :
    ∀ k x, after.bufs k = some x → owns st o k = true → x.Owner := by
  subst hafter
  intro k y hy hk
  simp only [State.set] at hy
  rw [ho] at hk
  rcases update_eq_some.mp hy with ⟨rfl, hgot⟩ | ⟨hki, hy⟩
  · cases hgot
    rw [Function.update_self] at hk
    exact hs j x hx hk
  rw [Function.update_of_ne hki] at hk
  rcases update_eq_some.mp hy with ⟨rfl, -⟩ | ⟨hkj, hy⟩
  · rw [Function.update_self] at hk
    cases hk
  · rw [Function.update_of_ne hkj] at hk
    exact hs k y hy hk

/-- A call of the pool or of a buffer gives each buffer memory of its own that should have it. -/
theorem owns_op (A : Allocator) {o : op} (hs : st.Owns) (hshown : st.Shown)
    (h : Sane mine use_pool R st.code) (ha : Apt st.code o)
    (hc : step A st.code o = some after) :
    ∀ k x, after.bufs k = some x → owns st (.buf o) k = true → x.Owner := by
  have hempty : ∀ {j x}, st.code.bufs j = some x → ((st.lists j).length ≠ 0 ↔ x.size_ ≠ 0) := by
    intro j x hx
    rw [hshown.length j x hx]
  cases o <;>
    simp only [step, Option.bind_eq_bind, Option.pure_def, Option.bind_eq_some_iff,
      Option.some.injEq, fresh_some, unheld_some, exists_const] at hc
  case acquire v n =>
    obtain ⟨hv, rfl⟩ := hc
    exact owns_nothing hs (fun _ _ hb => hb) rfl
  case release v =>
    obtain ⟨c, hv, rfl⟩ := hc
    exact owns_nothing hs (fun _ _ hb => hb) rfl
  case ctor i n =>
    obtain ⟨hi, rfl⟩ := hc
    rw [ctor_eq]
    exact owns_one hs rfl rfl fun _ => Or.inl rfl
  case ctor_cap i n c =>
    obtain ⟨hi, r, hr, rfl⟩ := hc
    rw [ctor_cap_eq A _ (ctor_cap_le A hr), Option.some.injEq] at hr
    subst hr
    exact owns_one hs rfl rfl fun _ => Or.inl rfl
  case ctor_bytes i d n =>
    obtain ⟨hi, rfl⟩ := hc
    refine owns_one hs rfl rfl fun _ => Or.inl ?_
    by_cases hn : n = 0
    · simp [ctor_bytes, hn]
    · rw [ctor_bytes_eq A _ d hn]
      rfl
  case ctor_bytes_cap i d n c =>
    obtain ⟨hi, r, hr, rfl⟩ := hc
    refine owns_one hs rfl rfl fun _ => Or.inl ?_
    unfold ctor_bytes_cap at hr
    split_ifs at hr <;> cases hr <;> rfl
  case ctor_view i d n c =>
    obtain ⟨hi, b, hb, rfl⟩ := hc
    exact owns_one hs rfl rfl fun hf => by cases hf
  case ctor_own i v n c =>
    obtain ⟨hi, m, hm, b, hb, rfl⟩ := hc
    rw [ctor_own_some hb]
    exact owns_one hs rfl rfl fun _ => Or.inl rfl
  case copy_ctor i j =>
    obtain ⟨hi, x, hx, rfl⟩ := hc
    exact owns_one hs rfl rfl fun hown => copy_ctor_owner A (hs j x hx hown)
  case move_ctor i j =>
    obtain ⟨hi, x, hx, rfl⟩ := hc
    exact owns_move hs hx rfl rfl
  case dtor i =>
    obtain ⟨b, hb, rfl⟩ := hc
    refine owns_nothing hs ?_ rfl
    intro k x hx
    by_cases hki : k = i
    · subst hki
      simp at hx
    · simpa [hki] using hx
  case copy_assign i j =>
    obtain ⟨b, hb, x, hx, rfl⟩ := hc
    by_cases hij : i = j
    · subst hij
      rw [if_pos rfl]
      intro k y hy hk
      by_cases hki : k = i
      · subst hki
        simp only [owns, Function.update_self, Bool.and_eq_true] at hk
        exact hs k y hy hk.1
      · simp only [owns, Function.update_of_ne hki] at hk
        exact hs k y hy hk
    · rw [if_neg hij]
      refine owns_one hs rfl rfl fun hown => ?_
      simp only [Bool.and_eq_true, Bool.or_eq_true, decide_eq_true_eq, hempty hx] at hown
      apply copy_assign_owner A (ha hij b hb x hx) (hs j x hx hown.1) (h.buffers j x hx).fits
      intro hzero
      exact hs i b hb (hown.2.resolve_left fun hne => hne hzero)
  case move_assign i j =>
    obtain ⟨b, hb, x, hx, hc⟩ := hc
    split at hc
    · rename_i hij
      subst hij
      cases hc
      refine owns_one hs rfl ?_ ?_ (f := st.own i)
      · simp [owns]
      · intro hown
        right
        rcases hs i b hb hown with hf | hcap
        · exact (h.buffers i b hb).null hf (ha rfl b hb hf)
        · exact hcap
    · cases hc
      exact owns_move hs hx rfl rfl
  case swap i j =>
    obtain ⟨b, hb, x, hx, rfl⟩ := hc
    intro k y hy hk
    simp only [State.set, owns] at hy hk
    rcases update_eq_some.mp hy with ⟨rfl, hgot⟩ | ⟨hkj, hy⟩
    · cases hgot
      rw [Function.update_self] at hk
      exact hs i b hb hk
    rw [Function.update_of_ne hkj] at hk
    rcases update_eq_some.mp hy with ⟨rfl, hgot⟩ | ⟨hki, hy⟩
    · cases hgot
      rw [Function.update_self] at hk
      exact hs j x hx hk
    · rw [Function.update_of_ne hki] at hk
      exact hs k y hy hk
  case detach i v =>
    obtain ⟨b, hb, hv, rfl⟩ := hc
    exact owns_one hs rfl rfl fun _ => Or.inr rfl
  case assign i d n =>
    obtain ⟨b, hb, rfl⟩ := hc
    refine owns_one hs rfl rfl fun hown => ?_
    simp only [Bool.and_eq_true, Bool.or_eq_true, decide_eq_true_eq] at hown
    rcases hown with ⟨hd, hn⟩ | hown
    · left
      by_cases hc : n > b.capacity_
      · rw [assign_grow A _ d hc]
      · rw [assign_stay A _ d hc]
        exact ((assigns_own (ha b hb) (by omega)).resolve_left hd).resolve_left hn
    · exact (assign_grows A d).owner (hs i b hb hown)
  case assign_view i d n c =>
    obtain ⟨b, hb, rfl⟩ := hc
    exact owns_one hs rfl rfl fun hf => by cases hf
  case assign_own i v n c =>
    obtain ⟨b, hb, m, hm, rfl⟩ := hc
    exact owns_one hs rfl rfl fun _ => Or.inl rfl
  case attach i v n =>
    obtain ⟨b, hb, m, hm, rfl⟩ := hc
    exact owns_one hs rfl rfl fun _ => Or.inl rfl
  case capacity i c =>
    obtain ⟨b, hb, rfl⟩ := hc
    exact owns_grows hs hb rfl rfl (capacity_grows A)
  case size i n =>
    obtain ⟨b, hb, rfl⟩ := hc
    exact owns_grows hs hb rfl rfl (size_grows A)
  case clear i =>
    obtain ⟨b, hb, rfl⟩ := hc
    exact owns_grows hs hb rfl rfl (Or.inr ⟨rfl, rfl⟩)
  case flush i n =>
    obtain ⟨b, hb, rfl⟩ := hc
    exact owns_grows hs hb rfl rfl flush_grows
  case append i d n =>
    obtain ⟨b, hb, rfl⟩ := hc
    exact owns_grows hs hb rfl rfl (append_grows A d)
  case append_buffer i j =>
    obtain ⟨b, hb, x, hx, rfl⟩ := hc
    exact owns_grows hs hb rfl rfl (append_grows A x.data_)

theorem owns_call (A : Allocator) (hs : st.Owns) (hshown : st.Shown)
    (h : Sane mine use_pool R st.code) (ha : o.Apt st.code)
    (hc : call_step A st.code o = some after) :
    ∀ k x, after.bufs k = some x → owns st o k = true → x.Owner := by
  cases o <;>
    simp only [call_step, Option.bind_eq_bind, Option.pure_def, Option.bind_eq_some_iff,
      Option.some.injEq, fresh_some, unheld_some, exists_const] at hc
  case buf o => exact owns_op A hs hshown h ha hc
  case view i j pos len =>
    obtain ⟨hi, x, hx, b, hb, rfl⟩ := hc
    exact owns_one hs rfl rfl fun hf => by cases hf
  case new_array v n =>
    obtain ⟨hv, rfl⟩ := hc
    exact owns_nothing hs (fun _ _ hb => hb) rfl
  case delete_array v =>
    obtain ⟨c, hv, rfl⟩ := hc
    exact owns_nothing hs (fun _ _ hb => hb) rfl
  case poke v off bytes =>
    obtain ⟨c, hv, hc⟩ := hc
    split at hc
    · cases hc
      exact owns_nothing hs (fun _ _ hb => hb) rfl
    · cases hc

/-! ## The law of all runs -/

/-- The buffers are what they should be. None has more bytes than room. Each piece of memory has
one owner, or is free, and went back once. Each buffer has the bytes that its list says, and those
that should be its own are in memory that it owns. -/
structure Represented (st : Told) : Prop where
  fits : ∀ i b, st.code.bufs i = some b → b.size_ ≤ b.capacity_
  owners : InOrder st.code.w.pool st.code.held
  bytes : ∀ i b, st.code.bufs i = some b →
    (st.lists i).length = b.size_ ∧ At st.code.w.mem b.data_ (st.lists i)
  own : ∀ i b, st.code.bufs i = some b → st.own i = true → b.size_ ≠ 0 → b.free_ = true

/-- A program begins with a pool, with no buffer and no chunk, and chooses between the pool and
`new[]`. -/
def begin_with (use_pool : Bool) (pool : memPool) (mem : Nat → UInt8) : State :=
  { start pool mem with w := { pool, mem, use_pool } }

/-- Nothing is said before there is a buffer. -/
def untold (code : State) : Told :=
  { code, lists := fun _ => [], own := fun _ => false }

@[simp] theorem untold_code (code : State) : (untold code).code = code := rfl

/-- What each step keeps. Nobody but the buffers and those who hold chunks has memory. -/
structure Told.Sound (mine : Nat → Prop) (use_pool : Bool) (st : Told) : Prop where
  sane : Sane mine use_pool (fun _ : Empty => 0) st.code
  shown : st.Shown
  owns : st.Owns

theorem sound_step (A : Allocator) {st st' : Told} (h : st.Sound mine use_pool)
    (ha : o.Apt st.code) (hs : told_step A st o = some st') : st'.Sound mine use_pool := by
  obtain ⟨after, hc, rfl⟩ := Option.map_eq_some_iff.mp hs
  have hsane := sane_call A h.sane ha hc
  exact ⟨hsane, shown_after h.shown hsane (tells_call A h.shown h.sane ha hc),
    owns_call A h.owns h.shown h.sane ha hc⟩

theorem Told.Sound.represented (h : st.Sound mine use_pool) : Represented st where
  fits := fun i b hb => (h.sane.buffers i b hb).fits
  owners := by
    have hk := h.sane.owned.kept.rename (Equiv.sumEmpty holder Empty).symm
    exact hk.in_order
  bytes := fun i b hb => ⟨h.shown.length i b hb, h.shown.bytes i b hb⟩
  own := by
    intro i b hb hown hne
    have hfits := (h.sane.buffers i b hb).fits
    apply (h.owns i b hb hown).resolve_right
    omega

theorem sound_begin (A : Allocator) (canary_sz n₁ n₂ n₃ n₄ n₅ : Nat) (mem : Nat → UInt8)
    (use_pool : Bool) :
    (untold (begin_with use_pool (memPool.init A canary_sz n₁ n₂ n₃ n₄ n₅) mem)).Sound
      (memPool.init A canary_sz n₁ n₂ n₃ n₄ n₅).Mine use_pool := by
  have hbufs : ∀ i b, (begin_with use_pool (memPool.init A canary_sz n₁ n₂ n₃ n₄ n₅) mem).bufs i ≠
      some b := by
    intro i b hb
    cases hb
  have hvars : ∀ v c, (begin_with use_pool (memPool.init A canary_sz n₁ n₂ n₃ n₄ n₅) mem).vars v ≠
      some c := by
    intro v c hc
    cases hc
  constructor
  case sane =>
    refine ⟨⟨?_, rfl, fun i b hb => absurd hb (hbufs i b), fun v c hc => absurd hc (hvars v c)⟩,
      fun i b hb => absurd hb (hbufs i b), fun v c hc => absurd hc (hvars v c),
      fun v c hc => absurd hc (hvars v c), modest_init A canary_sz n₁ n₂ n₃ n₄ n₅⟩
    apply Kept.init
    rintro ((i | v) | e)
    · rfl
    · rfl
    · rfl
  case shown =>
    constructor
    · exact fun i b hb => absurd hb (hbufs i b)
    · exact fun i b hb => absurd hb (hbufs i b)
    · exact fun i b hb => absurd hb (hbufs i b)
  case owns => exact fun i b hb => absurd hb (hbufs i b)

/-- The lists do not change what the code does. -/
theorem told_code (A : Allocator) (st : Told) (o : call) :
    call_step A st.code o = (told_step A st o).map Told.code := by
  simp [told_step, Function.comp_def]

/-- In each run whose calls do what they should, the buffers are byte lists. -/
theorem buffers_are_byte_lists (A : Allocator) (canary_sz n₁ n₂ n₃ n₄ n₅ : Nat)
    (mem : Nat → UInt8) (use_pool : Bool) (calls : List call)
    (hcalls : Meets (call_step A) (fun st o => o.Apt st)
      (begin_with use_pool (memPool.init A canary_sz n₁ n₂ n₃ n₄ n₅) mem) calls) :
    Always (told_step A) Represented
      (untold (begin_with use_pool (memPool.init A canary_sz n₁ n₂ n₃ n₄ n₅) mem)) calls := by
  have hmeets := meets_map (f := Told.code) (told_code A) (s := untold _) hcalls
  exact (always_of_meets (fun _ _ _ h ha hs => sound_step A h ha hs)
    (sound_begin A canary_sz n₁ n₂ n₃ n₄ n₅ mem use_pool) hmeets).mono fun _ h => h.represented

/-- A buffer of two bytes with room for eight is appended to itself. -/
theorem a_buffer_is_appended_to_itself :
    Always (told_step bump) Represented
      (untold (begin_with false (memPool.init bump 0 0 0 0 0 0) fun _ => 0))
      [.buf (.ctor_cap 0 2 8), .buf (.append_buffer 0 0)] :=
  buffers_are_byte_lists bump 0 0 0 0 0 0 (fun _ => 0) false
    [.buf (.ctor_cap 0 2 8), .buf (.append_buffer 0 0)] (by
      intro st hst
      refine ⟨fun hpool => absurd hpool Bool.false_ne_true, fun _ _ => ⟨?_, trivial⟩⟩
      simp only [call_step, step, Option.bind_eq_bind, Option.bind_eq_some_iff, Option.pure_def,
        Option.some.injEq, ctor_cap_eq bump _ (show 2 ≤ 8 by decide)] at hst
      obtain ⟨-, -, r, rfl, rfl⟩ := hst
      rw [obtain_array rfl bump (show 8 ≠ 0 by decide)]
      intro b hb x hx
      simp only [State.set, Function.update_self, Option.mem_def, Option.some.injEq] at hb hx
      subst hb hx
      refine Or.inr ?_
      rw [if_neg (by decide)]
      exact ⟨Or.inl rfl, Or.inl (Nat.le_refl _)⟩)

/-- A buffer of one byte, a view of it, and a copy of the view. -/
def copied_view : List call :=
  [.buf (.ctor_cap 0 1 1), .view 1 0 0 1, .buf (.copy_ctor 2 1)]

/-- With the pool the copy of the view has one byte and no capacity. -/
theorem a_copied_view_has_no_capacity :
    ((exec (call_step bump) (begin_with true (memPool.init bump 0 0 0 0 0 0) fun _ => 0)
      copied_view).bind fun st => (st.bufs 2).map fun b => (b.size_, b.capacity_)) =
        some (1, 0) := by
  simp only [memPool.init, counts, memPool.allocate,
    init_memory_eq bump _ _ _ (bucket_id.sz_pos _)]
  decide +kernel

/-- Without the condition, a buffer has more bytes than room. -/
theorem copied_views_are_not_byte_lists :
    ¬ ∀ (A : Allocator) (canary_sz n₁ n₂ n₃ n₄ n₅ : Nat) (mem : Nat → UInt8) (use_pool : Bool)
      (calls : List call), Always (told_step A) Represented
        (untold (begin_with use_pool (memPool.init A canary_sz n₁ n₂ n₃ n₄ n₅) mem)) calls := by
  intro hall
  obtain ⟨st, hst, hb⟩ := Option.bind_eq_some_iff.mp a_copied_view_has_no_capacity
  obtain ⟨b, hb, hsize⟩ := Option.map_eq_some_iff.mp hb
  have hrun := exec_map (f := Told.code) (told_code bump)
    (untold (begin_with true (memPool.init bump 0 0 0 0 0 0) fun _ => 0)) copied_view
  rw [untold_code, hst] at hrun
  obtain ⟨told, htold, rfl⟩ := Option.map_eq_some_iff.mp hrun.symm
  have hrep := always_exec (hall bump 0 0 0 0 0 0 (fun _ => 0) true copied_view) htold
  have hfits := hrep.fits 2 b hb
  obtain ⟨h1, h0⟩ := Prod.mk.inj hsize
  omega

end socle.membuf
