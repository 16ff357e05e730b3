-- How much room a buffer has. Its capacity is never more than the memory behind
-- its pointer, and its size never more than its capacity. A function changes
-- bytes only in the memory that its buffer has before or after it.
import Socle.PoolRoom
import Socle.BufferOwners

namespace socle.membuf

open mempool lib.ledger

/-! ## A buffer with room -/

/-- The buffer does not say more than it has. -/
structure buffer.Good (b : buffer) (w : World) : Prop where
  room : b.free_ = true → b.data_ ≠ 0 → Room w.pool b.data_ b.capacity_
  null : b.free_ = true → b.data_ = 0 → b.capacity_ = 0
  fits : b.size_ ≤ b.capacity_

/-- Where the memory of a buffer is, if it owns any. -/
def buffer.place (b : buffer) : Nat :=
  if b.free_ then b.data_ else 0

theorem ne_data {b : buffer} {p : Nat} (h : p ≠ b.place) (hf : b.free_ = true) : p ≠ b.data_ := by
  rwa [buffer.place, if_pos hf] at h

/-- The byte at `a` is in the memory that the buffer owns. -/
def buffer.Covers (b : buffer) (a : Nat) : Prop :=
  b.free_ = true ∧ b.data_ ≤ a ∧ a < b.data_ + b.capacity_

/-- A request of `n` bytes gets a chunk that says `m` bytes or more, if it gets a free chunk. -/
def Serves (w : World) (n m : Nat) : Prop :=
  w.use_pool = true → ∀ id ∈ pick_bucket n, ∀ c ∈ (w.pool.bucket id).bucket.head?, m ≤ c.capacity

instance (w : World) (n m : Nat) : Decidable (Serves w n m) :=
  inferInstanceAs (Decidable (_ → ∀ id ∈ _, ∀ c ∈ _, _))

variable {ι : Type*} {mine : Nat → Prop} {w : World} {T : ι → Multiset Nat} {b : buffer}
  {n m size : Nat}

/-! ## Getting and giving memory -/

/-- New memory has the room that it says and the room that was asked for. -/
theorem room_obtain (h : Kept mine w.pool T) (hm : Modest w.pool) (A : Allocator) (hn : n ≠ 0) :
    (w.obtain A n).1.ptr ≠ 0 ∧
      Room (w.obtain A n).2.pool (w.obtain A n).1.ptr (w.obtain A n).1.capacity ∧
      Room (w.obtain A n).2.pool (w.obtain A n).1.ptr n := by
  cases hu : w.use_pool with
  | true =>
    rw [obtain_pool hu]
    exact h.room_acquire hm A hn
  | false =>
    rw [obtain_array hu A hn]
    have hroom : Room (w.new_array A n).2.pool (w.new_array A n).1 n :=
      ⟨n, .heap List.mem_cons_self (h.toLaid.from_heap_not_mine A n), Nat.le_refl n⟩
    exact ⟨A.place_ne_null _ _ _, hroom, hroom⟩

/-- A request for nothing gets nothing. -/
theorem obtain_zero (A : Allocator) (w : World) :
    (w.obtain A 0).1.ptr = 0 ∧ (w.obtain A 0).1.capacity = 0 := by
  cases hu : w.use_pool with
  | true =>
    rw [obtain_pool hu]
    simp [World.acquire, memPool.acquire]
  | false =>
    rw [obtain_nothing hu]
    exact ⟨rfl, rfl⟩

theorem backed_obtain {p k : Nat} (hp : Backed w.pool p k) (A : Allocator) (n : Nat) :
    Backed (w.obtain A n).2.pool p k := by
  cases hu : w.use_pool with
  | true =>
    rw [obtain_pool hu]
    exact backed_acquire hp A n
  | false =>
    by_cases hn : n = 0
    · subst hn
      rw [obtain_nothing hu]
      exact hp
    · rw [obtain_array hu A hn]
      exact backed_alloc hp A n

theorem modest_obtain (hm : Modest w.pool) (A : Allocator) (n : Nat) :
    Modest (w.obtain A n).2.pool := by
  cases hu : w.use_pool with
  | true =>
    rw [obtain_pool hu]
    exact modest_acquire hm A n
  | false =>
    by_cases hn : n = 0
    · subst hn
      rw [obtain_nothing hu]
      exact hm
    · rw [obtain_array hu A hn]
      exact hm

/-- A request that is served well gets as much as it says it needs. -/
theorem serves_obtain (hs : Serves w n m) (A : Allocator) (hn : n ≠ 0) (hle : m ≤ n) :
    m ≤ (w.obtain A n).1.capacity := by
  cases hu : w.use_pool with
  | true =>
    rw [obtain_pool hu]
    simp only [World.acquire]
    rcases acquire_cases A w.pool hn with ⟨id, c, rest, hpick, hb, heq⟩ | ⟨-, heq⟩
    · rw [heq]
      exact hs hu id hpick c (by simp [hb])
    · rw [heq]
      exact hle
  | false =>
    rw [obtain_array hu A hn]
    exact hle

/-- What a buffer gives back leaves all other memory. -/
theorem backed_give {p k : Nat} (hp : Backed w.pool p k) (hne : p ≠ b.data_) :
    Backed (if w.use_pool then w.release { ptr := b.data_, capacity := b.capacity_ }
      else w.delete_array b.data_).pool p k := by
  split
  · exact backed_release hp hne
  · exact backed_heap_dealloc hp hne

theorem modest_give (hm : Modest w.pool) (hl : Laid w.pool)
    (hr : b.data_ ≠ 0 → Room w.pool b.data_ b.capacity_) :
    Modest (if w.use_pool then w.release { ptr := b.data_, capacity := b.capacity_ }
      else w.delete_array b.data_).pool := by
  split
  · exact modest_release hm hl hr
  · exact hm

/-- What happens to the memory of the others: nothing, in all that is not in the memory which the
buffer has before or after the function. -/
structure Works (b : buffer) (w : World) (r : buffer × World) : Prop where
  good : r.1.Good r.2
  backed : ∀ p k, (b.free_ = true → p ≠ b.data_) → Backed w.pool p k → Backed r.2.pool p k
  modest : Modest r.2.pool
  frame : ∀ a, ¬ b.Covers a → ¬ r.1.Covers a → r.2.mem a = w.mem a

@[simp] theorem dealloc_mem (b : buffer) (w : World) : (b.dealloc w).mem = w.mem := by
  unfold buffer.dealloc
  split_ifs <;> rfl

@[simp] theorem drop_own_mem (b : buffer) (w : World) : (b.drop_own w).mem = w.mem := by
  unfold buffer.drop_own
  split_ifs <;> rfl

theorem backed_dealloc {p k : Nat} (hp : Backed w.pool p k)
    (hne : b.free_ = true → p ≠ b.data_) : Backed (b.dealloc w).pool p k := by
  unfold buffer.dealloc
  by_cases hf : b.free_ = true ∧ b.capacity_ > 0
  · rw [if_pos hf]
    exact backed_give hp (hne hf.1)
  · rw [if_neg hf]
    exact hp

theorem backed_drop_own {p k : Nat} (hp : Backed w.pool p k)
    (hne : b.free_ = true → p ≠ b.data_) : Backed (b.drop_own w).pool p k := by
  unfold buffer.drop_own
  by_cases hf : b.free_ = true ∧ b.data_ ≠ 0
  · rw [if_pos hf]
    exact backed_give hp (hne hf.1)
  · rw [if_neg hf]
    exact hp

/-- Nothing stands behind `nullptr`, so a buffer without memory gives nothing back. -/
theorem backed_dealloc_place {p k : Nat} (hp : Backed w.pool p k) (hne : p ≠ b.place) :
    Backed (b.dealloc w).pool p k :=
  backed_dealloc hp (ne_data hne)

theorem modest_dealloc (hm : Modest w.pool) (hl : Laid w.pool) (hb : b.Good w) :
    Modest (b.dealloc w).pool := by
  unfold buffer.dealloc
  by_cases hf : b.free_ = true ∧ b.capacity_ > 0
  · rw [if_pos hf]
    exact modest_give hm hl (hb.room hf.1)
  · rw [if_neg hf]
    exact hm

theorem modest_drop_own (hm : Modest w.pool) (hl : Laid w.pool) (hb : b.Good w) :
    Modest (b.drop_own w).pool := by
  unfold buffer.drop_own
  by_cases hf : b.free_ = true ∧ b.data_ ≠ 0
  · rw [if_pos hf]
    exact modest_give hm hl (hb.room hf.1)
  · rw [if_neg hf]
    exact hm

/-! ## What each function changes -/

/-- No buffer, or one that does not own memory. -/
def nobody : buffer :=
  { free_ := false }

theorem nobody_covers (a : Nat) : ¬ nobody.Covers a := by
  rintro ⟨hf, -⟩
  cases hf

theorem good_view {b : buffer} (hf : b.free_ = false) (hfits : b.size_ ≤ b.capacity_) :
    b.Good w := by
  refine ⟨fun h => ?_, fun h => ?_, hfits⟩
  · rw [hf] at h
    cases h
  · rw [hf] at h
    cases h

theorem works_self (hm : Modest w.pool) (hb : b.Good w) : Works b w (b, w) :=
  ⟨hb, fun _ _ _ hp => hp, hm, fun _ _ _ => rfl⟩

theorem Works.resize {b' : buffer} {w' : World} (h : Works b w (b', w')) (hn : n ≤ b'.capacity_) :
    Works b w ({ b' with size_ := n }, w') :=
  ⟨⟨h.good.room, h.good.null, hn⟩, h.backed, h.modest, h.frame⟩

/-- A copy into the memory of the buffer. -/
theorem Works.memcpy {b' : buffer} {w' : World} (h : Works b w (b', w')) (src : Nat) {dst k : Nat}
    (hf : k ≠ 0 → b'.free_ = true) (hlo : b'.data_ ≤ dst)
    (hhi : dst + k ≤ b'.data_ + b'.capacity_) : Works b w (b', w'.memcpy dst src k) := by
  refine ⟨⟨h.good.room, h.good.null, h.good.fits⟩, h.backed, h.modest, fun a ha ha' => ?_⟩
  rw [← h.frame a ha ha']
  simp only [World.memcpy]
  by_cases hk : k = 0
  · rw [if_neg (by omega)]
  · rw [if_neg]
    rintro ⟨hge, hlt⟩
    exact ha' ⟨hf hk, hlo.trans hge, hlt.trans_le hhi⟩

/-- A function that gives its old memory back first. -/
theorem Works.after_give {r : buffer × World} (h : Works nobody (b.dealloc w) r) :
    Works b w r := by
  refine ⟨h.good, ?_, h.modest, ?_⟩
  · intro p k hne hp
    apply h.backed p k _ (backed_dealloc hp hne)
    intro hf
    cases hf
  · intro a _ ha'
    rw [h.frame a (nobody_covers a) ha', dealloc_mem]

/-- The buffer has new memory. -/
theorem works_obtained (hm : Modest w.pool) (A : Allocator) (n : Nat) {b' : buffer}
    (hroom : b'.data_ ≠ 0 → Room (w.obtain A n).2.pool b'.data_ b'.capacity_)
    (hnull : b'.data_ = 0 → b'.capacity_ = 0) (hfits : b'.size_ ≤ b'.capacity_) :
    Works b w (b', (w.obtain A n).2) := by
  refine ⟨⟨fun _ => hroom, fun _ => hnull, hfits⟩, fun p k _ hp => backed_obtain hp A n,
    modest_obtain hm A n, fun a _ _ => ?_⟩
  rw [World.obtain_mem]

theorem works_inside (h : Kept mine w.pool T) (hm : Modest w.pool) (A : Allocator)
    (hs : size ≤ (w.obtain A n).1.capacity) :
    Works b w (.inside (w.obtain A n).1 size, (w.obtain A n).2) := by
  by_cases hn : n = 0
  · subst hn
    obtain ⟨hp, hc⟩ := obtain_zero A w
    exact works_obtained hm A 0 (fun hne => absurd hp hne) (fun _ => hc) hs
  · obtain ⟨hne, hroom, -⟩ := room_obtain h hm A hn
    exact works_obtained hm A n (fun _ => hroom) (fun hnull => absurd hnull hne) hs

/-- New memory with a copy in it. -/
theorem works_filled (h : Kept mine w.pool T) (hm : Modest w.pool) (A : Allocator) (src : Nat)
    (hs : size ≤ (w.obtain A n).1.capacity) :
    Works b w (.inside (w.obtain A n).1 size,
      (w.obtain A n).2.memcpy (w.obtain A n).1.ptr src size) :=
  (works_inside h hm A hs).memcpy src (fun _ => rfl) (Nat.le_refl _) (Nat.add_le_add_left hs _)

variable (A : Allocator)

theorem ctor_works (h : Kept mine w.pool T) (hm : Modest w.pool) (n : Nat) :
    Works b w (ctor A n w) := by
  rw [ctor_eq]
  exact works_inside h hm A (Nat.zero_le _)

theorem ctor_cap_works (h : Kept mine w.pool T) (hm : Modest w.pool) {r : buffer × World}
    (hs : Serves w n size) (hr : ctor_cap A size n w = some r) : Works b w r := by
  by_cases hle : size ≤ n
  · rw [ctor_cap_eq A w hle] at hr
    cases hr
    by_cases hn : n = 0
    · subst hn
      exact works_inside h hm A (hle.trans (Nat.zero_le _))
    · exact works_inside h hm A (serves_obtain hs A hn hle)
  · unfold ctor_cap at hr
    rw [if_pos (by omega)] at hr
    cases hr

theorem ctor_bytes_works (h : Kept mine w.pool T) (hm : Modest w.pool) (d : Nat)
    (hs : Serves w n n) : Works b w (ctor_bytes A d n w) := by
  by_cases hn : n = 0
  · subst hn
    refine ⟨⟨fun _ hne => absurd rfl hne, fun _ _ => rfl, Nat.le_refl 0⟩, fun _ _ _ hp => hp, hm,
      fun _ _ _ => rfl⟩
  · rw [ctor_bytes_eq A w d hn]
    exact works_filled h hm A d (serves_obtain hs A hn (Nat.le_refl n))

theorem ctor_bytes_cap_works (h : Kept mine w.pool T) (hm : Modest w.pool) {d : Nat}
    {r : buffer × World} (hs : Serves w n size) (hr : ctor_bytes_cap A d size n w = some r) :
    Works b w r := by
  by_cases hle : size ≤ n
  · by_cases hn : n = 0
    · subst hn
      unfold ctor_bytes_cap at hr
      rw [if_neg (by omega), if_neg (by simp)] at hr
      cases hr
      exact ⟨⟨fun _ hne => absurd rfl hne, fun _ _ => rfl, hle⟩, fun _ _ _ hp => hp, hm,
        fun _ _ _ => rfl⟩
    · rw [ctor_bytes_cap_eq A w d hle hn] at hr
      cases hr
      exact works_filled h hm A d (serves_obtain hs A hn hle)
  · unfold ctor_bytes_cap at hr
    rw [if_pos (by omega)] at hr
    cases hr

/-- A copy gets room for what it copies: an owner is served, and a view keeps its capacity only
without the pool. -/
def Copies (x : buffer) (w : World) : Prop :=
  if x.free_ then Serves w x.capacity_ x.size_ else w.use_pool = true → x.size_ = 0

theorem copy_ctor_works (h : Kept mine w.pool T) (hm : Modest w.pool) {x : buffer}
    (hx : x.Good w) (hs : Copies x w) : Works b w (copy_ctor A x w) := by
  unfold Copies at hs
  have hsize := hx.fits
  cases hf : x.free_ with
  | true =>
    rw [hf, if_pos rfl] at hs
    by_cases hc : x.capacity_ = 0
    · have hcopy : copy_ctor A x w =
          ({ data_ := 0, size_ := x.size_, free_ := true, capacity_ := 0 }, w) := by
        unfold copy_ctor
        simp [hc, hf]
      rw [hcopy]
      refine ⟨⟨fun _ hne => absurd rfl hne, fun _ _ => rfl, ?_⟩, fun _ _ _ hp => hp, hm,
        fun _ _ _ => rfl⟩
      simp only
      omega
    · rw [copy_ctor_eq A w hf hc]
      exact works_filled h hm A x.data_ (serves_obtain hs A hc hsize)
  | false =>
    rw [hf, if_neg Bool.false_ne_true] at hs
    have hcopy : copy_ctor A x w =
        ({ data_ := if x.capacity_ ≠ 0 then x.data_ else 0, size_ := x.size_, free_ := false
           capacity_ := if w.use_pool then 0 else x.capacity_ }, w) := by
      unfold copy_ctor
      by_cases hc : x.capacity_ = 0 <;> simp [hc, hf]
    rw [hcopy]
    refine ⟨good_view rfl ?_, fun _ _ _ hp => hp, hm, fun _ _ _ => rfl⟩
    simp only
    split
    · rename_i hu
      rw [hs hu]
    · exact hsize

/-- `operator=` gets room for what it copies, or writes what it copies into memory of its own. It
copies nothing from a view, so the buffer has to be where the view is. -/
def CopiesInto (b x : buffer) (w : World) : Prop :=
  if x.size_ > b.capacity_ ∨ b.data_ = 0 then
    x.free_ = true → (w.use_pool = true ∨ x.capacity_ ≠ 0) ∧
      Serves (b.dealloc w) x.capacity_ x.size_
  else x.size_ = 0 ∨ if x.free_ then b.free_ = true else x.data_ = b.data_

section
variable [DecidableEq ι] {i : ι} {s : Multiset Nat}

theorem copy_assign_works (h : Kept mine w.pool T) (hi : T i = b.own + s)
    (ht : b.Tidy mine w.use_pool) (hm : Modest w.pool) {x : buffer} (hb : b.Good w)
    (hx : x.Good w) (hs : CopiesInto b x w) : Works b w (b.copy_assign A x w) := by
  unfold CopiesInto at hs
  have hd := kept_dealloc h hi ht
  have hmd := modest_dealloc hm h.toLaid hb
  have hsize := hx.fits
  by_cases hg : x.size_ > b.capacity_ ∨ b.data_ = 0
  · rw [if_pos hg] at hs
    apply Works.after_give
    cases hf : x.free_ with
    | true =>
      obtain ⟨hmem, hserves⟩ := hs hf
      rw [copy_assign_own A w hg hf hmem]
      apply works_filled hd hmd A x.data_
      by_cases hc : x.capacity_ = 0
      · omega
      · exact serves_obtain hserves A hc hsize
    | false =>
      rw [copy_assign_view A w hg hf]
      exact ⟨good_view hf hsize, fun _ _ _ hp => hp, hmd, fun _ _ _ => rfl⟩
  · rw [if_neg hg] at hs
    rw [not_or, Nat.not_lt] at hg
    rw [copy_assign_stay A w (by omega)]
    have hsame := (works_self hm hb).resize hg.1
    split
    · rename_i hf
      apply hsame.memcpy x.data_ _ (Nat.le_refl _) (Nat.add_le_add_left hg.1 _)
      intro hne
      have hown := hs.resolve_left hne
      rwa [hf, if_pos rfl] at hown
    · exact hsame

/-- What is written without new memory is written into memory of the buffer itself. -/
def WritesOwn (b : buffer) (n : Nat) : Prop :=
  n = 0 ∨ b.free_ = true

theorem assign_works (h : Kept mine w.pool T) (hi : T i = b.own + s)
    (ht : b.Tidy mine w.use_pool) (hm : Modest w.pool) (hb : b.Good w) {d : Nat}
    (hs : n ≤ b.capacity_ → d = 0 ∨ WritesOwn b n) : Works b w (b.assign A d n w) := by
  have hd := kept_dealloc h hi ht
  have hmd := modest_dealloc hm h.toLaid hb
  by_cases hn : n > b.capacity_
  · apply Works.after_give
    rw [assign_grow A w d hn]
    have hne : n ≠ 0 := by omega
    obtain ⟨hptr, -, hroom⟩ := room_obtain hd hmd A hne
    have hnew : Works nobody (b.dealloc w) ({ buffer.inside ((b.dealloc w).obtain A n).1 n with
        capacity_ := n, free_ := true }, ((b.dealloc w).obtain A n).2) :=
      works_obtained hmd A n (fun _ => hroom) (fun hnull => absurd hnull hptr) (Nat.le_refl n)
    split
    · exact hnew.memcpy d (fun _ => rfl) (Nat.le_refl _) (Nat.le_refl _)
    · exact hnew
  · rw [assign_stay A w d hn]
    have hle : n ≤ b.capacity_ := by omega
    have hsame := (works_self hm hb).resize hle
    split
    · rename_i hd0
      apply hsame.memcpy d _ (Nat.le_refl _) (Nat.add_le_add_left hle _)
      intro hne
      exact ((hs hle).resolve_left hd0).resolve_left hne
    · exact hsame

/-- New memory is not where the buffer has its old memory. -/
theorem obtain_fresh (h : Kept mine w.pool T) (hi : T i = b.own + s) (hn : n ≠ 0)
    (hf : b.free_ = true) (hm : Modest w.pool) : (w.obtain A n).1.ptr ≠ b.data_ := by
  intro heq
  have hne := (room_obtain h hm A hn).1
  have hnodup := (kept_obtain h A n hi).once.nodup i
  rw [Function.update_self, own_of_free hf, ref_add hne, Multiset.nodup_cons] at hnodup
  apply hnodup.1
  rw [heq] at hne ⊢
  rw [ref_add hne]
  exact Multiset.mem_cons_self _ _

theorem capacity_works (h : Kept mine w.pool T) (hi : T i = b.own + s) (hm : Modest w.pool)
    (hb : b.Good w) (hs : b.capacity_ < n → Serves w n b.size_) :
    Works b w (b.capacity A n w).2 := by
  have hsize := hb.fits
  by_cases hc : b.capacity_ < n
  · have hne : n ≠ 0 := by omega
    have hserved := serves_obtain (hs hc) A hne (by omega)
    have hfilled := works_filled (b := b) h hm A b.data_ hserved
    obtain ⟨-, hroom, -⟩ := room_obtain h hm A hne
    have hback : ∀ p k, (b.free_ = true → p ≠ b.data_) → Backed (w.obtain A n).2.pool p k →
        Backed (b.dealloc ((w.obtain A n).2.memcpy (w.obtain A n).1.ptr b.data_ b.size_)).pool
          p k := by
      intro p k hp hback
      exact backed_dealloc (w := (w.obtain A n).2.memcpy _ _ _) hback hp
    rw [capacity_eq A w b hc]
    refine ⟨⟨fun _ _ => ?_, hfilled.good.null, hfilled.good.fits⟩, ?_, ?_, ?_⟩
    · obtain ⟨k, hk, hle⟩ := hroom
      exact ⟨k, hback _ _ (fun hf => obtain_fresh A h hi hne hf hm) hk, hle⟩
    · intro p k hp hk
      exact hback p k hp (backed_obtain hk A n)
    · apply modest_dealloc hfilled.modest
      · exact (kept_obtain h A n hi).toLaid
      · refine ⟨fun hf hd => ?_, hb.null, hb.fits⟩
        obtain ⟨k, hk, hle⟩ := hb.room hf hd
        exact ⟨k, backed_obtain hk A n, hle⟩
    · intro a ha ha'
      rw [dealloc_mem]
      exact hfilled.frame a ha ha'
  · unfold buffer.capacity
    rw [if_pos (by omega)]
    exact works_self hm hb

theorem size_works (h : Kept mine w.pool T) (hi : T i = b.own + s) (hm : Modest w.pool)
    (hb : b.Good w) (hs : b.capacity_ < n → Serves w n n) : Works b w (b.size A n w).2 := by
  unfold buffer.size
  by_cases hn : b.capacity_ < n
  · simp only [if_pos hn]
    have hsize := hb.fits
    have hall : ∀ k, k ≤ n → Serves w n k := fun k hk hu id hid c hc =>
      hk.trans (hs hn hu id hid c hc)
    have hcap := capacity_works A h hi hm hb fun _ => hall b.size_ (by omega)
    apply hcap.resize
    rw [capacity_eq A w b hn]
    exact serves_obtain (hs hn) A (by omega) (Nat.le_refl n)
  · simp only [if_neg hn]
    exact (works_self hm hb).resize (by omega)

theorem flush_works (hm : Modest w.pool) (hb : b.Good w)
    (hs : n ≠ 0 → n < b.size_ → b.free_ = true) : Works b w (b.flush n w) := by
  have hsize := hb.fits
  unfold buffer.flush
  split
  · exact (works_self hm hb).resize (Nat.zero_le _)
  · rename_i hn
    rw [not_or, Nat.not_le] at hn
    have hres := (works_self hm hb).resize (n := b.size_ - n) (by omega)
    apply hres.memcpy _ (fun _ => hs hn.1 hn.2) (Nat.le_refl _)
    simp only
    omega

theorem append_works (h : Kept mine w.pool T) (hi : T i = b.own + s) (hm : Modest w.pool)
    (hb : b.Good w) (d : Nat)
    (hs : if b.capacity_ < b.size_ + n then Serves w (b.size_ + n) (b.size_ + n)
      else WritesOwn b n) : Works b w (b.append A d n w) := by
  have hsize := hb.fits
  by_cases hc : b.capacity_ < b.size_ + n
  · rw [if_pos hc] at hs
    by_cases hn : n = 0
    · omega
    · rw [append_grow A w d hc hn]
      have hcap := capacity_works A h hi hm hb fun _ hu id hid c hcc =>
        (Nat.le_add_right b.size_ n).trans (hs hu id hid c hcc)
      rw [capacity_eq A w b hc] at hcap ⊢
      have hserved := serves_obtain hs A (by omega) (Nat.le_refl _)
      have hres := hcap.resize hserved
      apply hres.memcpy d (fun _ => rfl)
      · exact Nat.le_add_right _ _
      · simp only [buffer.inside]
        omega
  · rw [if_neg hc] at hs
    rw [append_stay A w d hc]
    have hres := (works_self hm hb).resize (n := b.size_ + n) (by omega)
    apply hres.memcpy d (fun hne => hs.resolve_left hne)
    · exact Nat.le_add_right _ _
    · simp only
      omega

end

/-! ## A state with room -/

variable {κ : Type*} {R : κ → Multiset Nat} {use_pool : Bool} {st : State}

/-- The owners are in order, and no buffer and nothing that is held says more than it has. -/
structure Sane (mine : Nat → Prop) (use_pool : Bool) (R : κ → Multiset Nat) (st : State) : Prop
    where
  owned : Owned mine use_pool R st
  buffers : ∀ i b, st.bufs i = some b → b.Good st.w
  room : ∀ v c, st.vars v = some c → c.ptr ≠ 0 → Room st.w.pool c.ptr c.capacity
  null : ∀ v c, st.vars v = some c → c.ptr = 0 → c.capacity = 0
  modest : Modest st.w.pool

/-- The byte at `a` is in the memory of a holder. -/
def State.Covers (st : State) : holder → Nat → Prop
  | .buf i, a => ∃ b ∈ st.bufs i, b.Covers a
  | .var v, a => ∃ c ∈ st.vars v, c.ptr ≤ a ∧ a < c.ptr + c.capacity

theorem held_of_buf {i : Nat} {b : buffer} (hb : st.bufs i = some b) (hf : b.free_ = true)
    (hd : b.data_ ≠ 0) : b.data_ ∈ st.held (.buf i) := by
  have hi : st.held (.buf i) = ref b.data_ + 0 := by
    simp [State.held, hb, own_of_free hf]
  rw [hi, ref_add hd]
  exact Multiset.mem_cons_self _ _

theorem held_of_var {v : Nat} {c : mem_chunk} (hc : st.vars v = some c) (hd : c.ptr ≠ 0) :
    c.ptr ∈ st.held (.var v) := by
  have hi : st.held (.var v) = ref c.ptr + 0 := by
    simp [State.held, hc]
  rw [hi, ref_add hd]
  exact Multiset.mem_cons_self _ _

theorem Sane.one_holder (h : Sane mine use_pool R st) {k k' : holder} {p : Nat}
    (hk : p ∈ st.held k) (hk' : p ∈ st.held k') : k = k' := by
  have heq := h.owned.kept.once.one (.inl k) (.inl k') p hk hk'
  simpa using heq

/-- What a holder covers is in a piece that it has. -/
theorem Sane.piece (h : Sane mine use_pool R st) {k : holder} {a : Nat} (hk : st.Covers k a) :
    ∃ p n, p ∈ st.held k ∧ Room st.w.pool p n ∧ p ≤ a ∧ a < p + n := by
  cases k with
  | buf i =>
    obtain ⟨b, hb, hf, hlo, hhi⟩ := hk
    have hg := h.buffers i b hb
    have hd : b.data_ ≠ 0 := by
      intro hd
      have hc := hg.null hf hd
      omega
    exact ⟨b.data_, b.capacity_, held_of_buf hb hf hd, hg.room hf hd, hlo, hhi⟩
  | var v =>
    obtain ⟨c, hc, hlo, hhi⟩ := hk
    have hd : c.ptr ≠ 0 := by
      intro hd
      have hcap := h.null v c hc hd
      omega
    exact ⟨c.ptr, c.capacity, held_of_var hc hd, h.room v c hc hd, hlo, hhi⟩

/-- No byte has two holders. -/
theorem Sane.apart (h : Sane mine use_pool R st) {k k' : holder} {a : Nat} (hk : st.Covers k a)
    (hk' : st.Covers k' a) : k = k' := by
  obtain ⟨p, n, hp, hroom, hlo, hhi⟩ := h.piece hk
  obtain ⟨p', n', hp', hroom', hlo', hhi'⟩ := h.piece hk'
  by_cases heq : p = p'
  · subst heq
    exact h.one_holder hp hp'
  · have ha := h.owned.kept.toLaid.room_apart hroom hroom' heq
    omega

/-- Buffers that keep their memory while holder `k` may give its memory back. -/
theorem Sane.other_good (h : Sane mine use_pool R st) {w : World} {k : holder} {q : Nat}
    (hq : q ≠ 0 → q ∈ st.held k)
    (hback : ∀ p n, p ≠ q → Backed st.w.pool p n → Backed w.pool p n) {j : Nat} {x : buffer}
    (hx : st.bufs j = some x) (hne : k ≠ .buf j) : x.Good w := by
  have hg := h.buffers j x hx
  refine ⟨fun hf hd => ?_, hg.null, hg.fits⟩
  obtain ⟨m, hm, hle⟩ := hg.room hf hd
  refine ⟨m, hback _ m ?_ hm, hle⟩
  rintro rfl
  exact hne (h.one_holder (hq hd) (held_of_buf hx hf hd))

theorem Sane.other_room (h : Sane mine use_pool R st) {w : World} {k : holder} {q : Nat}
    (hq : q ≠ 0 → q ∈ st.held k)
    (hback : ∀ p n, p ≠ q → Backed st.w.pool p n → Backed w.pool p n) {v : Nat} {c : mem_chunk}
    (hc : st.vars v = some c) (hne : k ≠ .var v) (hd : c.ptr ≠ 0) :
    Room w.pool c.ptr c.capacity := by
  obtain ⟨m, hm, hle⟩ := h.room v c hc hd
  refine ⟨m, hback _ m ?_ hm, hle⟩
  rintro rfl
  exact hne (h.one_holder (hq hd) (held_of_var hc hd))

theorem place_held {i : Nat} {b : buffer} (hb : b.free_ = true → st.bufs i = some b)
    (hne : b.place ≠ 0) : b.place ∈ st.held (.buf i) := by
  unfold buffer.place at *
  by_cases hf : b.free_ = true
  · rw [if_pos hf] at *
    exact held_of_buf (hb hf) hf hne
  · rw [if_neg hf] at hne
    exact absurd rfl hne

theorem Works.backed_place {r : buffer × World} (h : Works b w r) {p k : Nat}
    (hne : p ≠ b.place) (hp : Backed w.pool p k) : Backed r.2.pool p k :=
  h.backed p k (ne_data hne) hp

/-- Buffer `i` is what a function left, which may have given the memory of `b` back. -/
theorem sane_put (h : Sane mine use_pool R st) {i : Nat} {r : buffer × World}
    (hb : b.free_ = true → st.bufs i = some b) (hg : r.1.Good r.2)
    (hback : ∀ p k, p ≠ b.place → Backed st.w.pool p k → Backed r.2.pool p k)
    (hm : Modest r.2.pool) (ho : Owned mine use_pool R (st.set i r)) :
    Sane mine use_pool R (st.set i r) where
  owned := ho
  buffers := by
    intro k x hx
    simp only [State.set] at hx ⊢
    rcases update_eq_some.mp hx with ⟨rfl, hgot⟩ | ⟨hki, hx⟩
    · cases hgot
      exact hg
    · exact h.other_good (place_held hb) hback hx (by simpa using Ne.symm hki)
  room := by
    intro v c hc hd
    exact h.other_room (place_held hb) hback hc (by simp) hd
  null := h.null
  modest := hm

theorem sane_set (h : Sane mine use_pool R st) {i : Nat} {r : buffer × World}
    (hb : b.free_ = true → st.bufs i = some b) (hw : Works b st.w r)
    (ho : Owned mine use_pool R (st.set i r)) : Sane mine use_pool R (st.set i r) :=
  sane_put h hb hw.good (fun _ _ => hw.backed_place) hw.modest ho

/-! ## The condition on a call -/

/-- The `n` bytes from `d` on and the `m` bytes from `p` on share no byte. -/
def Away (d n p m : Nat) : Prop :=
  d + n ≤ p ∨ p + m ≤ d

instance (d n p m : Nat) : Decidable (Away d n p m) :=
  inferInstanceAs (Decidable (_ ∨ _))

/-- Memory that somebody holds is taken over with a capacity that it has. -/
def Takes (st : State) (m : mem_chunk) (c : Nat) : Prop :=
  if m.ptr = 0 then c = 0
  else 0 < c ∧ c ≤ m.capacity ∧ (st.w.use_pool = false → ¬ st.w.pool.Mine m.ptr)

/-- `assign` writes into memory of its own, and not where its source is. -/
def Assigns (b : buffer) (d n : Nat) : Prop :=
  if n > b.capacity_ then d = 0 ∨ (b.free_ = true → Away d n b.data_ b.capacity_)
  else d = 0 ∨ n = 0 ∨ (b.free_ = true ∧ Away d n b.data_ n)

/-- No buffer owns the `n` bytes from `p` on. -/
def Unowned (st : State) (p n : Nat) : Prop :=
  ∀ j x, st.bufs j = some x → ∀ a, p ≤ a → a < p + n → ¬ x.Covers a

/-- The buffer writes into memory of its own or into memory that no buffer owns. -/
def MayWrite (st : State) (b : buffer) (p n : Nat) : Prop :=
  b.free_ = true ∨ Unowned st p n

/-- `append` gets enough memory and does not give the memory of its source back, or it writes
where it may, and not where its source is. -/
def Appends (st : State) (b : buffer) (d n : Nat) : Prop :=
  n = 0 ∨
    if b.capacity_ < b.size_ + n then
      Serves st.w (b.size_ + n) (b.size_ + n) ∧ (b.free_ = true → Away d n b.data_ b.capacity_)
    else MayWrite st b (b.data_ + b.size_) n ∧ Away d n (b.data_ + b.size_) n

/-- A call that does what it should. -/
def Apt (st : State) : op → Prop
  | .ctor_cap _ s c | .ctor_bytes_cap _ _ s c => Serves st.w c s
  | .ctor_bytes _ _ s => Serves st.w s s
  | .ctor_own _ v _ c | .attach _ v c => ∀ m ∈ st.vars v, Takes st m c
  | .assign_own _ v s c => s ≤ c ∧ ∀ m ∈ st.vars v, Takes st m c
  | .assign_view _ _ s c => s ≤ c
  | .copy_ctor _ j => ∀ x ∈ st.bufs j, Copies x st.w
  | .copy_assign i j => i ≠ j → ∀ b ∈ st.bufs i, ∀ x ∈ st.bufs j, CopiesInto b x st.w
  | .move_assign i j => i = j → ∀ b ∈ st.bufs i, b.free_ = true → b.data_ = 0
  | .assign i d s => ∀ b ∈ st.bufs i, Assigns b d s
  | .capacity i c => ∀ b ∈ st.bufs i, b.capacity_ < c → Serves st.w c b.size_
  | .size i s => ∀ b ∈ st.bufs i, b.capacity_ < s → Serves st.w s s
  | .flush i n => ∀ b ∈ st.bufs i, n ≠ 0 → n < b.size_ → MayWrite st b b.data_ (b.size_ - n)
  | .append i d s => ∀ b ∈ st.bufs i, Appends st b d s
  | .append_buffer i j => ∀ b ∈ st.bufs i, ∀ x ∈ st.bufs j, Appends st b x.data_ x.size_
  | _ => True

theorem takes_over {m : mem_chunk} {c : Nat} (h : Takes st m c) : TakesOver st m c := by
  intro hne
  unfold Takes at h
  rw [if_neg hne] at h
  exact ⟨h.1, h.2.2⟩

theorem copies_memory {b x : buffer} {w : World} (h : CopiesInto b x w) :
    CopiesMemory b x w.use_pool := by
  intro hg hf
  unfold CopiesInto at h
  rw [if_pos hg] at h
  exact (h hf).1

/-- Such a call gives back what it should. -/
theorem apt_gives_back {o : op} (h : Apt st o) : GivesBack st o := by
  cases o
  case ctor_own i v s c => exact fun m hm => takes_over (h m hm)
  case attach i v s => exact fun m hm => takes_over (h m hm)
  case assign_own i v s c => exact fun m hm => takes_over (h.2 m hm)
  case copy_assign i j => exact fun hij b hb x hx => copies_memory (h hij b hb x hx)
  all_goals trivial

/-! ## The steps -/

/-- A buffer that has taken the memory `m` over. -/
def buffer.taken (m : mem_chunk) (size c : Nat) : buffer :=
  { data_ := m.ptr, size_ := size, capacity_ := c }

/-- The memory of `v` under another name has the room that was asked for. -/
theorem Sane.taken (h : Sane mine use_pool R st) {v c : Nat} {m : mem_chunk}
    (hm : st.vars v = some m) (ht : Takes st m c) (hs : size ≤ c) :
    (buffer.taken m size c).Good st.w := by
  unfold Takes at ht
  refine ⟨fun _ hd => ?_, fun _ hd => ?_, hs⟩
  · have hptr : m.ptr ≠ 0 := hd
    rw [if_neg hptr] at ht
    obtain ⟨k, hk, hle⟩ := h.room v m hm hptr
    exact ⟨k, hk, ht.2.1.trans hle⟩
  · have hptr : m.ptr = 0 := hd
    rw [if_pos hptr] at ht
    exact ht

/-- Buffer `i` takes over the memory of `v`, after it may have given its own memory back. -/
theorem sane_take_over (h : Sane mine use_pool R st) {i v c : Nat} {m : mem_chunk} {w : World}
    (hm : st.vars v = some m) (ht : Takes st m c) (hs : size ≤ c) {q : Nat}
    (hq : q ≠ 0 → q ∈ st.held (.buf i))
    (hback : ∀ p n, p ≠ q → Backed st.w.pool p n → Backed w.pool p n) (hmod : Modest w.pool)
    (ho : Owned mine use_pool R ((st.set i (.taken m size c, w)).hold v none)) :
    Sane mine use_pool R ((st.set i (.taken m size c, w)).hold v none) where
  owned := ho
  buffers := by
    intro k x hx
    simp only [State.set, State.hold] at hx ⊢
    rcases update_eq_some.mp hx with ⟨rfl, hgot⟩ | ⟨hki, hx⟩
    · cases hgot
      have hg := h.taken hm ht hs
      refine ⟨fun hf hd => ?_, hg.null, hg.fits⟩
      obtain ⟨n, hn, hle⟩ := hg.room hf hd
      refine ⟨n, hback _ n ?_ hn, hle⟩
      rintro rfl
      have hholder := h.one_holder (hq hd) (held_of_var hm hd)
      cases hholder
    · exact h.other_good hq hback hx (by simpa using Ne.symm hki)
  room := by
    intro u d hd hne
    simp only [State.set, State.hold] at hd ⊢
    obtain ⟨-, hd⟩ := update_none_eq_some.mp hd
    exact h.other_room hq hback hd (by simp) hne
  null := by
    intro u d hd
    simp only [State.set, State.hold] at hd
    obtain ⟨-, hd⟩ := update_none_eq_some.mp hd
    exact h.null u d hd
  modest := hmod

/-- Buffer `i` becomes what buffer `j` was, after it may have given its own memory back. -/
theorem sane_move (h : Sane mine use_pool R st) {i j : Nat} {x : buffer} {w : World}
    (hx : st.bufs j = some x) (hij : i ≠ j) {q : Nat} (hq : q ≠ 0 → q ∈ st.held (.buf i))
    (hback : ∀ p n, p ≠ q → Backed st.w.pool p n → Backed w.pool p n) (hmod : Modest w.pool)
    (ho : Owned mine use_pool R ((st.set j ({ x with free_ := false }, w)).set i (x, w))) :
    Sane mine use_pool R ((st.set j ({ x with free_ := false }, w)).set i (x, w)) where
  owned := ho
  buffers := by
    intro k y hy
    simp only [State.set] at hy ⊢
    rcases update_eq_some.mp hy with ⟨rfl, hgot⟩ | ⟨hki, hy⟩
    · cases hgot
      exact h.other_good hq hback hx (by simpa using hij)
    rcases update_eq_some.mp hy with ⟨rfl, hgot⟩ | ⟨-, hy⟩
    · cases hgot
      exact good_view rfl (h.buffers k x hx).fits
    · exact h.other_good hq hback hy (by simpa using Ne.symm hki)
  room := fun _ _ hc hd => h.other_room hq hback hc (by simp) hd
  null := h.null
  modest := hmod

/-- What somebody holds by hand comes or goes. -/
theorem sane_hold (h : Sane mine use_pool R st) {v : Nat} {c : Option mem_chunk} {w : World}
    {q : Nat} (hq : q ≠ 0 → q ∈ st.held (.var v))
    (hback : ∀ p n, p ≠ q → Backed st.w.pool p n → Backed w.pool p n) (hmod : Modest w.pool)
    (hc : ∀ m, c = some m → (m.ptr ≠ 0 → Room w.pool m.ptr m.capacity) ∧
      (m.ptr = 0 → m.capacity = 0))
    (ho : Owned mine use_pool R ({ st with w }.hold v c)) :
    Sane mine use_pool R ({ st with w }.hold v c) where
  owned := ho
  buffers := fun _ _ hx => h.other_good hq hback hx (by simp)
  room := by
    intro u d hd hne
    simp only [State.hold] at hd ⊢
    rcases update_eq_some.mp hd with ⟨rfl, hgot⟩ | ⟨huv, hd⟩
    · exact (hc d hgot).1 hne
    · exact h.other_room hq hback hd (by simpa using Ne.symm huv) hne
  null := by
    intro u d hd hnull
    simp only [State.hold] at hd
    rcases update_eq_some.mp hd with ⟨rfl, hgot⟩ | ⟨-, hd⟩
    · exact (hc d hgot).2 hnull
    · exact h.null u d hd hnull
  modest := hmod

/-- A state with the same world, whose buffers and held memory are known to have room. -/
theorem sane_same (h : Sane mine use_pool R st) {st' : State} (hw : st'.w = st.w)
    (hbufs : ∀ k x, st'.bufs k = some x → x.Good st.w)
    (hvars : ∀ v c, st'.vars v = some c → (c.ptr ≠ 0 → Room st.w.pool c.ptr c.capacity) ∧
      (c.ptr = 0 → c.capacity = 0))
    (ho : Owned mine use_pool R st') : Sane mine use_pool R st' where
  owned := ho
  buffers := by
    rw [hw]
    exact hbufs
  room := by
    rw [hw]
    exact fun v c hc => (hvars v c hc).1
  null := fun v c hc => (hvars v c hc).2
  modest := by
    rw [hw]
    exact h.modest

theorem ctor_own_le {d s c : Nat} {own : Bool} {b : buffer} (h : ctor_own d s c own = some b) :
    s ≤ c := by
  unfold ctor_own at h
  split at h
  · cases h
  · omega

theorem assigns_own {b : buffer} {d : Nat} (h : Assigns b d n) :
    n ≤ b.capacity_ → d = 0 ∨ WritesOwn b n := by
  intro hle
  unfold Assigns at h
  rw [if_neg (by omega)] at h
  rcases h with hd | hn | ⟨hf, -⟩
  · exact Or.inl hd
  · exact Or.inr (Or.inl hn)
  · exact Or.inr (Or.inr hf)

/-- A buffer that writes through memory which it does not own keeps its memory. -/
theorem sane_through (h : Sane mine use_pool R st) {i : Nat} {b b' : buffer}
    (hf : b.free_ = false) (hf' : b'.free_ = false) (hfits : b'.size_ ≤ b'.capacity_)
    (dst src k : Nat) (ho : Owned mine use_pool R (st.set i (b', st.w.memcpy dst src k))) :
    Sane mine use_pool R (st.set i (b', st.w.memcpy dst src k)) := by
  apply sane_put (b := b) h _ (good_view hf' hfits) (fun _ _ _ hp => hp) h.modest ho
  intro hfree
  rw [hf] at hfree
  cases hfree

section
variable [DecidableEq κ]

theorem sane_append (A : Allocator) (h : Sane mine use_pool R st) {i d : Nat} {b : buffer}
    (hb : st.bufs i = some b) (ha : Appends st b d n)
    (ho : Owned mine use_pool R (st.set i (b.append A d n st.w))) :
    Sane mine use_pool R (st.set i (b.append A d n st.w)) := by
  have hg := h.buffers i b hb
  have hsize := hg.fits
  have happend := append_works (b := b) (n := n) A h.owned.kept (held_buf hb) h.modest hg d
  by_cases hn : n = 0
  · apply sane_set h (fun _ => hb) (happend _) ho
    rw [if_neg (by omega)]
    exact Or.inl hn
  have hmem := ha.resolve_left hn
  by_cases hc : b.capacity_ < b.size_ + n
  · rw [if_pos hc] at hmem happend
    exact sane_set h (fun _ => hb) (happend hmem.1) ho
  rw [if_neg hc] at happend
  cases hf : b.free_ with
  | true => exact sane_set h (fun _ => hb) (happend (Or.inr hf)) ho
  | false =>
    rw [append_stay A st.w d hc] at ho ⊢
    apply sane_through h hf _ _ _ _ _ ho
    · exact hf
    · dsimp only
      omega

/-- A call that does what it should keeps the state sane. -/
theorem sane_step (A : Allocator) {st st' : State} {o : op} (h : Sane mine use_pool R st)
    (ha : Apt st o) (hs : step A st o = some st') : Sane mine use_pool R st' := by
  have ho := owned_step A h.owned (apt_gives_back ha) hs
  have hk := h.owned.kept
  have hl := hk.toLaid
  have hnew : ∀ i, nobody.free_ = true → st.bufs i = some nobody := fun _ hf => by cases hf
  cases o <;>
    simp only [step, Option.bind_eq_bind, Option.pure_def, Option.bind_eq_some_iff,
      Option.some.injEq, fresh_some, unheld_some, exists_const] at hs
  case acquire v n =>
    obtain ⟨hv, rfl⟩ := hs
    apply sane_hold (w := (st.w.acquire A n).2) (q := 0) h (absurd rfl)
      (fun p k _ hp => backed_acquire hp A n) (modest_acquire h.modest A n) _ ho
    intro m hm
    cases hm
    by_cases hn : n = 0
    · subst hn
      simp [World.acquire, memPool.acquire]
    · obtain ⟨hne, hroom, -⟩ := hk.room_acquire h.modest A hn
      exact ⟨fun _ => hroom, fun hnull => absurd hnull hne⟩
  case release v =>
    obtain ⟨c, hc, rfl⟩ := hs
    exact sane_hold (w := st.w.release c) h (fun hd => held_of_var hc hd)
      (fun p k hne hp => backed_release hp hne) (modest_release h.modest hl (h.room v c hc))
      (fun m hm => by cases hm) ho
  case ctor i n =>
    obtain ⟨hi, rfl⟩ := hs
    exact sane_set h (hnew i) (ctor_works A hk h.modest n) ho
  case ctor_cap i n c =>
    obtain ⟨hi, r, hr, rfl⟩ := hs
    exact sane_set h (hnew i) (ctor_cap_works A hk h.modest ha hr) ho
  case ctor_bytes i d n =>
    obtain ⟨hi, rfl⟩ := hs
    exact sane_set h (hnew i) (ctor_bytes_works A hk h.modest d ha) ho
  case ctor_bytes_cap i d n c =>
    obtain ⟨hi, r, hr, rfl⟩ := hs
    exact sane_set h (hnew i) (ctor_bytes_cap_works A hk h.modest ha hr) ho
  case ctor_view i d n c =>
    obtain ⟨hi, b, hb, rfl⟩ := hs
    have hle := ctor_own_le hb
    rw [ctor_own_some hb] at ho ⊢
    apply sane_set h (hnew i) _ ho
    exact ⟨good_view rfl hle, fun _ _ _ hp => hp, h.modest, fun _ _ _ => rfl⟩
  case ctor_own i v n c =>
    obtain ⟨hi, m, hm, b, hb, rfl⟩ := hs
    have hle := ctor_own_le hb
    rw [ctor_own_some hb] at ho ⊢
    exact sane_take_over (q := 0) h hm (ha m hm) hle (absurd rfl) (fun _ _ _ hp => hp) h.modest ho
  case copy_ctor i j =>
    obtain ⟨hi, x, hx, rfl⟩ := hs
    exact sane_set h (hnew i) (copy_ctor_works A hk h.modest (h.buffers j x hx) (ha x hx)) ho
  case move_ctor i j =>
    obtain ⟨hi, x, hx, rfl⟩ := hs
    have hij : i ≠ j := by
      rintro rfl
      rw [hi] at hx
      cases hx
    exact sane_move (q := 0) h hx hij (absurd rfl) (fun _ _ _ hp => hp) h.modest ho
  case dtor i =>
    obtain ⟨b, hb, rfl⟩ := hs
    have hg := h.buffers i b hb
    have hback : ∀ p k, p ≠ b.place → Backed st.w.pool p k →
        Backed (b.dealloc st.w).pool p k := fun p k hne hp => backed_dealloc_place hp hne
    refine ⟨ho, ?_, ?_, h.null, modest_dealloc h.modest hl hg⟩
    · intro k x hx
      simp only at hx ⊢
      obtain ⟨hki, hx⟩ := update_none_eq_some.mp hx
      exact h.other_good (place_held fun _ => hb) hback hx (by simpa using Ne.symm hki)
    · intro v c hc hd
      exact h.other_room (place_held fun _ => hb) hback hc (by simp) hd
  case copy_assign i j =>
    obtain ⟨b, hb, x, hx, rfl⟩ := hs
    by_cases hij : i = j
    · rw [if_pos hij]
      exact h
    · rw [if_neg hij] at ho ⊢
      apply sane_set h (fun _ => hb) _ ho
      exact copy_assign_works A hk (held_buf hb) (h.owned.tidy i b hb) h.modest
        (h.buffers i b hb) (h.buffers j x hx) (ha hij b hb x hx)
  case move_assign i j =>
    obtain ⟨b, hb, x, hx, hs⟩ := hs
    have hg := h.buffers i b hb
    have hmod := modest_drop_own h.modest hl hg
    split at hs
    · rename_i hij
      cases hs
      apply sane_set h (fun _ => hb) _ ho
      exact ⟨good_view rfl hg.fits, fun p k hne hp => backed_drop_own hp hne, hmod,
        fun a _ _ => by simp [buffer.move_assign_self]⟩
    · rename_i hij
      cases hs
      apply sane_move h hx hij (place_held fun _ => hb) _ hmod ho
      exact fun p k hne hp => backed_drop_own hp (ne_data hne)
  case swap i j =>
    obtain ⟨b, hb, x, hx, rfl⟩ := hs
    refine sane_same h rfl ?_ ?_ ho
    rotate_left
    · exact fun v c hc => ⟨h.room v c hc, h.null v c hc⟩
    intro k y hy
    simp only [State.set] at hy
    rcases update_eq_some.mp hy with ⟨rfl, hgot⟩ | ⟨-, hy⟩
    · cases hgot
      exact h.buffers i b hb
    rcases update_eq_some.mp hy with ⟨rfl, hgot⟩ | ⟨-, hy⟩
    · cases hgot
      exact h.buffers j x hx
    · exact h.buffers k y hy
  case detach i v =>
    obtain ⟨b, hb, hv, rfl⟩ := hs
    have hg := h.buffers i b hb
    refine sane_same h rfl ?_ ?_ ho
    · intro k y hy
      simp only [State.set, State.hold] at hy
      rcases update_eq_some.mp hy with ⟨rfl, hgot⟩ | ⟨-, hy⟩
      · cases hgot
        exact ⟨fun _ hne => absurd rfl hne, fun _ _ => rfl, Nat.le_refl 0⟩
      · exact h.buffers k y hy
    · intro u c hc
      simp only [State.set, State.hold] at hc
      rcases update_eq_some.mp hc with ⟨rfl, hgot⟩ | ⟨-, hc⟩
      · obtain ⟨rfl, hf, hne⟩ := owned_some hgot
        exact ⟨fun _ => hg.room hf hne, fun hnull => absurd hnull hne⟩
      · exact ⟨h.room u c hc, h.null u c hc⟩
  case assign i d n =>
    obtain ⟨b, hb, rfl⟩ := hs
    apply sane_set h (fun _ => hb) _ ho
    exact assign_works A hk (held_buf hb) (h.owned.tidy i b hb) h.modest (h.buffers i b hb)
      (assigns_own (ha b hb))
  case assign_view i d n c =>
    obtain ⟨b, hb, rfl⟩ := hs
    apply sane_set h (fun _ => hb) _ ho
    exact ⟨good_view rfl ha, fun p k hne hp => backed_dealloc hp hne,
      modest_dealloc h.modest hl (h.buffers i b hb), fun a _ _ => by simp [buffer.assign_own]⟩
  case assign_own i v n c =>
    obtain ⟨b, hb, m, hm, rfl⟩ := hs
    apply sane_take_over h hm (ha.2 m hm) ha.1 (place_held fun _ => hb) _
      (modest_dealloc h.modest hl (h.buffers i b hb)) ho
    exact fun p k hne hp => backed_dealloc_place hp hne
  case attach i v n =>
    obtain ⟨b, hb, m, hm, rfl⟩ := hs
    apply sane_take_over h hm (ha m hm) (Nat.le_refl n) (place_held fun _ => hb) _
      (modest_dealloc h.modest hl (h.buffers i b hb)) ho
    exact fun p k hne hp => backed_dealloc_place hp hne
  case capacity i c =>
    obtain ⟨b, hb, rfl⟩ := hs
    apply sane_set h (fun _ => hb) _ ho
    exact capacity_works A hk (held_buf hb) h.modest (h.buffers i b hb) (ha b hb)
  case size i n =>
    obtain ⟨b, hb, rfl⟩ := hs
    apply sane_set h (fun _ => hb) _ ho
    exact size_works A hk (held_buf hb) h.modest (h.buffers i b hb) (ha b hb)
  case clear i =>
    obtain ⟨b, hb, rfl⟩ := hs
    apply sane_set h (fun _ => hb) _ ho
    exact (works_self h.modest (h.buffers i b hb)).resize (Nat.zero_le _)
  case flush i n =>
    obtain ⟨b, hb, rfl⟩ := hs
    have hg := h.buffers i b hb
    cases hf : b.free_ with
    | true => exact sane_set h (fun _ => hb) (flush_works h.modest hg fun _ _ => hf) ho
    | false =>
      by_cases hn : n = 0 ∨ n ≥ b.size_
      · apply sane_set h (fun _ => hb) _ ho
        apply flush_works h.modest hg
        omega
      · unfold buffer.flush at ho ⊢
        rw [if_neg hn] at ho ⊢
        apply sane_through h hf _ _ _ _ _ ho
        · exact hf
        · exact (Nat.sub_le _ _).trans hg.fits
  case append i d n =>
    obtain ⟨b, hb, rfl⟩ := hs
    exact sane_append A h hb (ha b hb) ho
  case append_buffer i j =>
    obtain ⟨b, hb, x, hx, rfl⟩ := hs
    exact sane_append A h hb (ha b hb x hx) ho

end

end socle.membuf
