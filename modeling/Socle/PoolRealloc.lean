-- The allocation functions over the pool (common/mempool/mempool.cpp:
-- mempool_alloc, mempool_realloc, mempool_free), which OpenSSL uses. They are
-- not told how large a block is, and look its bucket up by its address.
import Socle.Lib.Run
import Socle.PoolConservation
import Socle.PoolCapacity

namespace socle.mempool

variable {ι : Type*} {w : memPool} {T : ι → Option mem_chunk} {i : ι} {c : mem_chunk}

/-! ## A chunk is found by its address -/

/-- A chunk that is out has a bucket, which knows its size, or it is a block of the heap. -/
theorem Sound.find_held (h : Sound w T) (hc : T i = some c) :
    (∃ id, w.find_by_address c.ptr = some id ∧ (w.bucket id).Carved c.ptr ∧
      c.capacity = id.sz ∧ c.pool_type = .POOL) ∨
    (w.find_by_address c.ptr = none ∧ ⟨c.ptr, c.capacity⟩ ∈ w.heap.live) := by
  obtain ⟨-, -, hback⟩ := h.backed i c hc
  cases hback with
  | carved id hp hn =>
    have hmine := carved_is_mine (h.shaped id) hp
    left
    refine ⟨id, ?_, hp, hn, ?_⟩
    · cases hfind : w.find_by_address c.ptr with
      | none =>
        rw [find_by_address_none.mp hfind id] at hmine
        cases hmine
      | some id' => rw [h.mine_once id' id c.ptr (find_by_address_some hfind) hmine]
    · cases ht : c.pool_type with
      | POOL => rfl
      | HEAP =>
        rw [h.heap_type i c hc ht id] at hmine
        cases hmine
  | heap hp hm => exact Or.inr ⟨find_by_address_none.mpr hm, hp⟩

/-- Who knows only the address of a chunk gives back the same as its holder. -/
theorem Sound.release_by_address (h : Sound w T) (hc : T i = some c) :
    w.release { ptr := c.ptr, capacity := w.find_ptr_size c.ptr } = w.release c := by
  unfold memPool.release
  rcases h.find_held hc with ⟨id, hfind, -, hcap, htype⟩ | ⟨hfind, -⟩
  · simp [hfind, htype, memPool.find_ptr_size, Bucket.release, hcap]
  · simp [hfind, memPool.free_heap]

theorem Sound.find_ptr_size_le (h : Sound w T) (hc : T i = some c) :
    w.find_ptr_size c.ptr ≤ c.capacity := by
  unfold memPool.find_ptr_size
  rcases h.find_held hc with ⟨id, hfind, -, hcap, -⟩ | ⟨hfind, -⟩
  · simp [hfind, hcap]
  · simp [hfind]

theorem SamePlaces.find_ptr_size {w' : memPool} (h : SamePlaces w w') (p : Nat) :
    w'.find_ptr_size p = w.find_ptr_size p := by
  simp [memPool.find_ptr_size, memPool.find_by_address, h.is_mine]

/-! ## Blocks that stay -/

variable (A : Allocator)

/-- The block at `p` is there, and nobody can get it. -/
structure Stays (w : memPool) (p : Nat) : Prop where
  backed : ∃ n, Backed w p n
  not_free : ∀ id, ∀ f ∈ (w.bucket id).bucket, f.ptr ≠ p

theorem Sound.stays (h : Sound w T) (hc : T i = some c) : Stays w c.ptr :=
  ⟨⟨c.capacity, (h.backed i c hc).2.2⟩, fun id f hf => h.held_not_free i c id hc f hf⟩

theorem Stays.from_heap {p : Nat} (h : Stays w p) (n : Nat) : Stays (w.from_heap A n).2 p := by
  obtain ⟨m, hm⟩ := h.backed
  have hsame : SamePlaces w (w.from_heap A n).2 := fun _ => ⟨rfl, rfl, rfl, rfl⟩
  exact ⟨⟨m, hsame.backed (fun hl _ => List.mem_cons_of_mem _ hl) hm⟩, h.not_free⟩

theorem Stays.acquire {p : Nat} (h : Stays w p) (n : Nat) : Stays (w.acquire A n).2 p := by
  by_cases hn : n = 0
  · subst hn
    exact h
  · rcases acquire_cases A w hn with ⟨id, d, rest, -, hst, heq⟩ | ⟨-, heq⟩
    · rw [heq]
      obtain ⟨m, hm⟩ := h.backed
      refine ⟨⟨m, (same_places_put w id rest).backed (fun hl _ => hl) hm⟩, ?_⟩
      intro id' f hf
      rw [put_bucket] at hf
      split at hf
      next hid =>
        subst hid
        exact h.not_free id' f (by rw [hst]; exact List.mem_cons_of_mem _ hf)
      next => exact h.not_free id' f hf
    · rw [heq]
      exact h.from_heap A n

/-- A new block of the heap stays. -/
theorem Sound.new_block_stays (h : Sound w T) (n : Nat) :
    Stays (w.from_heap A n).2 (w.from_heap A n).1.ptr where
  backed := ⟨n, .heap List.mem_cons_self (h.from_heap_not_mine A n)⟩
  not_free := by
    intro id f hf heq
    have hmine := carved_is_mine (h.shaped id) (h.free_carved id f hf).1
    rw [heq, h.from_heap_not_mine A n id] at hmine
    cases hmine

/-! ## Exchanging a chunk -/

theorem acquire_bailing (w : memPool) (n : Nat) : (w.acquire A n).2.bailing = w.bailing := by
  by_cases hn : n = 0
  · subst hn
    rfl
  · rcases acquire_cases A w hn with ⟨id, d, rest, -, -, heq⟩ | ⟨-, heq⟩
    · rw [heq]
      rfl
    · rw [heq]
      rfl

theorem release_bailing (w : memPool) (c : mem_chunk) : (w.release c).bailing = w.bailing := by
  unfold memPool.release
  split
  · rfl
  split
  · rfl
  split
  · rfl
  cases w.find_by_address c.ptr <;> rfl

theorem Sound.acquire_ptr (h : Sound w T) {n : Nat} (hn : n ≠ 0) :
    (w.acquire A n).1.ptr ≠ 0 := by
  have hs : Sound w fun _ : Unit => none :=
    ⟨h.toLaid, h.free_carved, h.free_once, by simp, by simp, by simp, by simp⟩
  exact ((hs.acquire A hn).1.backed () _ (Function.update_self ..)).1

/-- The pointer of a chunk gets another chunk, and the old one goes back. `j` is a name that is not
used. -/
theorem Sound.exchange [DecidableEq ι] (h : Sound w T) {j : ι} (hij : i ≠ j) (hc : T i = some c)
    {n : Nat} (hn : n ≠ 0) :
    Sound ((w.acquire A n).2.release c)
      (Function.update (Function.update (Function.update T j (some (w.acquire A n).1)) i
        (some (w.acquire A n).1)) j none) ∧ n ≤ (w.acquire A n).1.capacity := by
  obtain ⟨hs, hle⟩ := h.acquire A (i := j) hn
  refine ⟨?_, hle⟩
  have hold : Function.update T j (some (w.acquire A n).1) i = some c := by
    rwa [Function.update_of_ne hij]
  refine (hs.release hold).hand_over hij fun d hd => ⟨d, ?_, rfl, rfl, fun ht => ht⟩
  rwa [Function.update_self]

end socle.mempool

namespace socle.membuf

open mempool lib.run lib.ledger

/-! ## The functions -/

variable (A : Allocator)

/-- `::realloc(p, n)`, which always moves the block here. -/
def World.realloc (p n : Nat) (w : World) : Nat × World :=
  match w.pool.heap.live.find? fun b => b.addr = p with
  | some b =>
    let r := w.new_array A n
    (r.1, (r.2.memcpy r.1 p (min b.len n)).delete_array p)
  | none => w.new_array A n

/-- `mempool_alloc`. It throws `mempool_error` when there is no memory. -/
def mempool_alloc (s : Nat) (w : World) : Option (Nat × World) :=
  if w.use_pool = false ∨ w.pool.bailing = true then some (w.new_array A s)
  else
    let r := w.acquire A s
    if r.1.ptr ≠ 0 then some (r.1.ptr, r.2) else none

def heap_on_tension : Bool := true

def mempool_realloc (optr nsz : Nat) (w : World) : Nat × World :=
  if w.use_pool = false then w.realloc A optr nsz
  -- if we use pools and exiting, rather leak than crash
  else if w.pool.bailing = true then w.new_array A nsz
  else
    let ptr_size := if optr ≠ 0 then w.pool.find_ptr_size optr else 0
    let old_m : mem_chunk := { ptr := optr, capacity := ptr_size }
    if ptr_size ≥ nsz then (optr, w)
    else
      let r := w.acquire A nsz
      if r.1.ptr = 0 then
        let w := r.2.release old_m
        if heap_on_tension then w.new_array A nsz else (0, w)
      else if optr ≠ 0 then
        -- a block of the heap has no size here, and nothing of it is copied
        let w :=
          if ptr_size ≠ 0 then
            r.2.memcpy r.1.ptr optr (if nsz ≤ ptr_size then nsz else ptr_size)
          else r.2
        (r.1.ptr, w.release old_m)
      else (r.1.ptr, r.2)

def mempool_free (optr : Nat) (w : World) : World :=
  if w.pool.bailing = true then w
  else if w.use_pool = false then w.delete_array optr
  else
    let ptr_size := w.pool.find_ptr_size optr
    if ptr_size = 0 then w.release { ptr := optr, capacity := ptr_size, pool_type := .HEAP }
    else w.release { ptr := optr, capacity := ptr_size }

/-! ## Runs -/

/-- The world, the pointers that `mempool_alloc` and `mempool_realloc` gave, each with the size
that was asked for, and the chunks that others hold. -/
structure Program where
  w : World
  ptrs : Nat → Option (Nat × Nat)
  vars : Nat → Option mem_chunk

inductive alloc_op
  | alloc (v s : Nat)
  | realloc (v n : Nat)
  | free (v : Nat)
  | acquire (u n : Nat)
  | release (u : Nat)
  -- the program begins to exit: `memPool::bailing` is set
  | exit

/-- Pointer `v` is `p`, for `n` bytes. -/
def Program.point (st : Program) (v n : Nat) (r : Nat × World) : Program :=
  { st with w := r.2, ptrs := Function.update st.ptrs v (some (r.1, n)) }

/-- One call. `realloc` of a pointer that is not there is one of `nullptr`. -/
def Program.step (st : Program) : alloc_op → Option Program
  | .alloc v s =>
    if st.ptrs v = none then (mempool_alloc A s st.w).map (st.point v s) else none
  | .realloc v n =>
    match st.ptrs v with
    | some (p, _) => some (st.point v n (mempool_realloc A p n st.w))
    | none => some (st.point v n (mempool_realloc A 0 n st.w))
  | .free v =>
    (st.ptrs v).map fun p =>
      { st with w := mempool_free p.1 st.w, ptrs := Function.update st.ptrs v none }
  | .acquire u n =>
    if st.vars u = none then
      let r := st.w.acquire A n
      some { st with w := r.2, vars := Function.update st.vars u (some r.1) }
    else none
  | .release u =>
    (st.vars u).map fun c =>
      { st with w := st.w.release c, vars := Function.update st.vars u none }
  | .exit => some { st with w := { st.w with pool := { st.w.pool with bailing := true } } }

/-- A program begins with a pool and with no pointer. -/
def Program.start (pool : memPool) (mem : Nat → UInt8) : Program :=
  { w := { pool, mem }, ptrs := fun _ => none, vars := fun _ => none }

/-! ## What reallocation is to do -/

/-- The block at `p` was given back once: its chunk is on the stack of its bucket, or its block is
not live any more. -/
structure GivenBack (w w' : memPool) (p : Nat) : Prop where
  pool : ∀ id, (w.bucket id).is_mine p = true → (w'.free id).count p = 1
  heap : (∀ id, (w.bucket id).is_mine p = false) → ∀ b ∈ w'.heap.live, b.addr ≠ p
  once : w'.heap.bad = w.heap.bad

/-- What the result `r` of `mempool_realloc(p, n)` is to be, for a block of `old` bytes. -/
structure Moved (w : World) (p old n : Nat) (r : Nat × World) : Prop where
  enough : ∃ m, extent r.2.pool r.1 = some m ∧ n ≤ m
  bytes : ∀ k < min old n, r.2.mem (r.1 + k) = w.mem (p + k)
  released : r.1 = p ∨ GivenBack w.pool r.2.pool p

/-- Reallocation keeps the data, whatever the bytes of the memory are. -/
def KeepsData (w : World) (p old n : Nat) : Prop :=
  ∀ mem, (mempool_realloc A p n { w with mem }).1 ≠ 0 →
    Moved { w with mem } p old n (mempool_realloc A p n { w with mem })

/-! ## What reallocation does -/

/-- What `mempool_realloc` does in a program that does not exit. -/
theorem realloc_cases {w : World} (hp : w.use_pool = true) (hb : w.pool.bailing = false)
    (p n : Nat) (hnew : n ≠ 0 → (w.pool.acquire A n).1.ptr ≠ 0) :
    (n ≤ (if p ≠ 0 then w.pool.find_ptr_size p else 0) ∧
      mempool_realloc A p n w = (p, w)) ∨
    ((if p ≠ 0 then w.pool.find_ptr_size p else 0) < n ∧
      (mempool_realloc A p n w).1 = (w.pool.acquire A n).1.ptr ∧
      (mempool_realloc A p n w).2.use_pool = true ∧
      (mempool_realloc A p n w).2.pool = (if p ≠ 0 then
        (w.pool.acquire A n).2.release { ptr := p, capacity := w.pool.find_ptr_size p }
        else (w.pool.acquire A n).2) ∧
      (mempool_realloc A p n w).2.mem =
        if p ≠ 0 ∧ w.pool.find_ptr_size p ≠ 0 then
          (w.memcpy (w.pool.acquire A n).1.ptr p (min n (w.pool.find_ptr_size p))).mem
        else w.mem) := by
  have hpool : ¬ w.use_pool = false := by simp [hp]
  have hbail : ¬ w.pool.bailing = true := by simp [hb]
  unfold mempool_realloc
  rw [if_neg hpool, if_neg hbail]
  by_cases hfit : n ≤ if p ≠ 0 then w.pool.find_ptr_size p else 0
  · exact Or.inl ⟨hfit, if_pos hfit⟩
  · right
    refine ⟨Nat.lt_of_not_le hfit, ?_⟩
    have hne : (w.acquire A n).1.ptr ≠ 0 := hnew (by omega)
    simp only [ge_iff_le, if_neg hfit, if_neg hne]
    by_cases hnull : p = 0
    · simp [hnull, World.acquire, hp]
    · simp only [ne_eq, hnull, not_false_eq_true, if_true, true_and]
      have hgrow : ¬ n ≤ w.pool.find_ptr_size p := by simpa [hnull] using hfit
      by_cases hsize : w.pool.find_ptr_size p = 0
      · simp [hsize, World.acquire, World.release, hp]
      · simp [hsize, World.acquire, World.release, World.memcpy, hp, min_def, hgrow]

/-! ## What each state keeps -/

/-- A program that does not exit yet. The ledger knows each pointer and each chunk by its name, and
a new chunk by `none` for as long as the old one is still out. -/
structure Running (st : Program) (T : Option (Nat ⊕ Nat) → Option mem_chunk) : Prop where
  bailing : st.w.pool.bailing = false
  sound : Sound st.w.pool T
  ptrs : ∀ v p old, st.ptrs v = some (p, old) → p ≠ 0 →
    ∃ c, T (some (.inl v)) = some c ∧ c.ptr = p ∧ old ≤ c.capacity
  vars : ∀ u c, st.vars u = some c → c.ptr ≠ 0 → T (some (.inr u)) = some c

/-- A program that exits gives nothing back any more. -/
structure Exiting (st : Program) : Prop where
  bailing : st.w.pool.bailing = true
  sound : Sound st.w.pool fun _ : Unit => none
  ptrs : ∀ v p old, st.ptrs v = some (p, old) → p ≠ 0 → Stays st.w.pool p

def Program.Kept (st : Program) : Prop :=
  st.w.use_pool = true ∧ ((∃ T, Running st T) ∨ Exiting st)

/-- Pointer `v` changes, and the ledger with it. -/
theorem Running.point {st : Program} {T T' : Option (Nat ⊕ Nat) → Option mem_chunk}
    (h : Running st T) {v n : Nat} {r : Nat × World} (hb : r.2.pool.bailing = false)
    (hs : Sound r.2.pool T') (hother : ∀ k, k ≠ .inl v → T' (some k) = T (some k))
    (hown : r.1 ≠ 0 → ∃ c, T' (some (.inl v)) = some c ∧ c.ptr = r.1 ∧ n ≤ c.capacity) :
    Running (st.point v n r) T' where
  bailing := hb
  sound := hs
  ptrs := by
    intro u p old hu hp
    rcases update_eq_some.mp hu with ⟨rfl, hgot⟩ | ⟨huv, hu⟩
    · cases hgot
      exact hown hp
    · rw [hother _ (by simpa using huv)]
      exact h.ptrs u p old hu hp
  vars := by
    intro u c hu hc
    rw [hother _ (by simp)]
    exact h.vars u c hu hc

/-- A pointer that was not there gets a chunk. -/
theorem Running.new_chunk {st : Program} {T : Option (Nat ⊕ Nat) → Option mem_chunk}
    (h : Running st T) (v : Nat) {n : Nat} (hn : n ≠ 0) {r : Nat × World}
    (hptr : r.1 = (st.w.pool.acquire A n).1.ptr) (hpool : r.2.pool = (st.w.pool.acquire A n).2) :
    r.1 ≠ 0 ∧ ∃ T', Running (st.point v n r) T' := by
  obtain ⟨hs, hle⟩ := (h.sound.forget (some (.inl v))).acquire A (i := some (.inl v)) hn
  have hgot := hs.backed _ _ (Function.update_self ..)
  refine ⟨hptr ▸ hgot.1, _, h.point ?_ (hpool ▸ hs) ?_ ?_⟩
  · rw [hpool, acquire_bailing]
    exact h.bailing
  · intro k hk
    have hne : some k ≠ some (.inl v) := by simpa using hk
    rw [Function.update_of_ne hne, Function.update_of_ne hne]
  · exact fun _ => ⟨_, Function.update_self .., hptr.symm, hle⟩

theorem Running.realloc {st : Program} {T : Option (Nat ⊕ Nat) → Option mem_chunk}
    (h : Running st T) (hp : st.w.use_pool = true) {v n p : Nat}
    (hold : p ≠ 0 → ∃ c, T (some (.inl v)) = some c ∧ c.ptr = p) :
    (mempool_realloc A p n st.w).2.use_pool = true ∧
      ∃ T', Running (st.point v n (mempool_realloc A p n st.w)) T' := by
  have hnew : n ≠ 0 → (st.w.pool.acquire A n).1.ptr ≠ 0 := fun hn => h.sound.acquire_ptr A hn
  rcases realloc_cases A hp h.bailing p n hnew with ⟨hfit, heq⟩ | ⟨hgrow, hptr, huse, hpool, -⟩
  · rw [heq]
    refine ⟨hp, T, h.point h.bailing h.sound (fun _ _ => rfl) fun hne => ?_⟩
    obtain ⟨c, hc, rfl⟩ := hold hne
    rw [if_pos hne] at hfit
    exact ⟨c, hc, rfl, Nat.le_trans hfit (h.sound.find_ptr_size_le hc)⟩
  · refine ⟨huse, ?_⟩
    have hn : n ≠ 0 := by omega
    by_cases hnull : p = 0
    · rw [if_neg (by simpa using hnull)] at hpool
      exact (h.new_chunk A v hn hptr hpool).2
    · rw [if_pos hnull] at hpool
      obtain ⟨c, hc, rfl⟩ := hold hnull
      have hheld : Function.update T none none (some (.inl v)) = some c := by
        rwa [Function.update_of_ne (by simp)]
      have hadr : (st.w.pool.acquire A n).2.release
          { ptr := c.ptr, capacity := st.w.pool.find_ptr_size c.ptr } =
          (st.w.pool.acquire A n).2.release c := by
        obtain ⟨hs, -⟩ := (h.sound.forget none).acquire A (i := none) hn
        rw [← (acquire_same_places A st.w.pool n).find_ptr_size]
        exact hs.release_by_address (i := some (.inl v)) (by rwa [Function.update_of_ne (by simp)])
      obtain ⟨hs, hle⟩ := (h.sound.forget none).exchange A (i := some (.inl v)) (j := none) (by simp)
        hheld hn
      refine ⟨_, h.point ?_ (by rw [hpool, hadr]; exact hs) ?_ ?_⟩
      · rw [hpool, release_bailing, acquire_bailing]
        exact h.bailing
      · intro k hk
        have hne : some k ≠ some (.inl v) := by simpa using hk
        rw [Function.update_of_ne (by simp), Function.update_of_ne hne,
          Function.update_of_ne (by simp), Function.update_of_ne (by simp)]
      · intro _
        refine ⟨_, ?_, hptr.symm, hle⟩
        rw [Function.update_of_ne (by simp), Function.update_self]

/-- What `mempool_free` gives back is the chunk that was held. -/
theorem free_pool {w : World} {ι : Type*} {T : ι → Option mem_chunk} {i : ι} {c : mem_chunk}
    (h : Sound w.pool T) (hc : T i = some c) (hp : w.use_pool = true)
    (hb : w.pool.bailing = false) : mempool_free c.ptr w = w.release c := by
  unfold mempool_free
  have hpool : ¬ w.use_pool = false := by simp [hp]
  have hbail : ¬ w.pool.bailing = true := by simp [hb]
  rw [if_neg hbail, if_neg hpool]
  have hrelease := h.release_by_address hc
  by_cases hsize : w.pool.find_ptr_size c.ptr = 0
  · rw [if_pos hsize]
    rcases h.find_held hc with ⟨id, hfind, -⟩ | ⟨hfind, -⟩
    · have hpos := id.sz_pos
      simp only [memPool.find_ptr_size, hfind] at hsize
      omega
    · simp [World.release, memPool.release, hfind, memPool.free_heap]
  · rw [if_neg hsize]
    unfold World.release
    rw [hrelease]

theorem Running.free {st : Program} {T : Option (Nat ⊕ Nat) → Option mem_chunk}
    (h : Running st T) (hp : st.w.use_pool = true) {v p old : Nat}
    (hv : st.ptrs v = some (p, old)) :
    (mempool_free p st.w).use_pool = true ∧ ∃ T', Running
      { st with w := mempool_free p st.w, ptrs := Function.update st.ptrs v none } T' := by
  have hptrs : ∀ u q m, Function.update st.ptrs v none u = some (q, m) →
      u ≠ v ∧ st.ptrs u = some (q, m) :=
    fun u q m hu => update_none_eq_some.mp hu
  by_cases hnull : p = 0
  · have hsame : mempool_free p st.w = st.w := by
      have hpool : ¬ st.w.use_pool = false := by simp [hp]
      have hbail : ¬ st.w.pool.bailing = true := by simp [h.bailing]
      unfold mempool_free
      rw [if_neg hbail, if_neg hpool]
      simp [hnull, World.release, memPool.release]
    rw [hsame]
    exact ⟨hp, T, h.bailing, h.sound, fun u q m hu => h.ptrs u q m (hptrs u q m hu).2, h.vars⟩
  · obtain ⟨c, hc, rfl, -⟩ := h.ptrs v p old hv hnull
    rw [free_pool h.sound hc hp h.bailing]
    refine ⟨hp, _, ?_, h.sound.release hc, ?_, ?_⟩
    · exact (release_bailing st.w.pool c).trans h.bailing
    · intro u q m hu hq
      obtain ⟨huv, hu⟩ := hptrs u q m hu
      obtain ⟨d, hd⟩ := h.ptrs u q m hu hq
      exact ⟨d, by rwa [Function.update_of_ne (by simpa using huv)]⟩
    · intro u d hu hd
      rw [Function.update_of_ne (by simp)]
      exact h.vars u d hu hd

theorem Running.acquire {st : Program} {T : Option (Nat ⊕ Nat) → Option mem_chunk}
    (h : Running st T) (u n : Nat) : ∃ T', Running
      { st with w := (st.w.acquire A n).2,
                vars := Function.update st.vars u (some (st.w.acquire A n).1) } T' := by
  by_cases hn : n = 0
  · subst hn
    refine ⟨T, h.bailing, h.sound, h.ptrs, ?_⟩
    intro u' c hu' hc
    rcases update_eq_some.mp hu' with ⟨rfl, hgot⟩ | ⟨-, hu'⟩
    · cases hgot
      exact absurd rfl hc
    · exact h.vars u' c hu' hc
  · obtain ⟨hs, -⟩ := (h.sound.forget (some (.inr u))).acquire A (i := some (.inr u)) hn
    refine ⟨_, (acquire_bailing A st.w.pool n).trans h.bailing, hs, ?_, ?_⟩
    · intro v p old hv hne
      obtain ⟨c, hc⟩ := h.ptrs v p old hv hne
      exact ⟨c, by rwa [Function.update_of_ne (by simp), Function.update_of_ne (by simp)]⟩
    · intro u' c hu' hc
      rcases update_eq_some.mp hu' with ⟨rfl, hgot⟩ | ⟨huu, hu'⟩
      · rw [Function.update_self]
        exact hgot
      · have hne : (some (.inr u') : Option (Nat ⊕ Nat)) ≠ some (.inr u) := by simpa using huu
        rw [Function.update_of_ne hne, Function.update_of_ne hne]
        exact h.vars u' c hu' hc

theorem Running.release {st : Program} {T : Option (Nat ⊕ Nat) → Option mem_chunk}
    (h : Running st T) {u : Nat} {c : mem_chunk} (hu : st.vars u = some c) : ∃ T', Running
      { st with w := st.w.release c, vars := Function.update st.vars u none } T' := by
  have hvars : ∀ u' d, Function.update st.vars u none u' = some d →
      u' ≠ u ∧ st.vars u' = some d :=
    fun u' d hd => update_none_eq_some.mp hd
  by_cases hnull : c.ptr = 0
  · have hsame : st.w.release c = st.w := by
      simp [World.release, memPool.release, hnull]
    rw [hsame]
    exact ⟨T, h.bailing, h.sound, h.ptrs, fun u' d hd => h.vars u' d (hvars u' d hd).2⟩
  · refine ⟨_, ?_, h.sound.release (h.vars u c hu hnull), ?_, ?_⟩
    · exact (release_bailing st.w.pool c).trans h.bailing
    · intro v p old hv hne
      obtain ⟨d, hd⟩ := h.ptrs v p old hv hne
      exact ⟨d, by rwa [Function.update_of_ne (by simp)]⟩
    · intro u' d hd hne
      obtain ⟨huu, hd⟩ := hvars u' d hd
      rw [Function.update_of_ne (by simpa using huu)]
      exact h.vars u' d hd hne

theorem Running.exit {st : Program} {T : Option (Nat ⊕ Nat) → Option mem_chunk}
    (h : Running st T) :
    Exiting { st with w := { st.w with pool := { st.w.pool with bailing := true } } } where
  bailing := rfl
  sound := ⟨⟨h.sound.shaped, h.sound.mine_once, h.sound.region_live, h.sound.live_apart,
    h.sound.live_ne_null⟩, h.sound.free_carved, h.sound.free_once, by simp, by simp, by simp,
    by simp⟩
  ptrs := by
    intro v p old hv hne
    obtain ⟨c, hc, rfl, -⟩ := h.ptrs v p old hv hne
    obtain ⟨⟨n, hn⟩, hfree⟩ := h.sound.stays hc
    refine ⟨⟨n, ?_⟩, hfree⟩
    cases hn with
    | carved id hp hn => exact .carved id hp hn
    | heap hp hm => exact .heap hp hm

theorem running_step {st st' : Program} {T : Option (Nat ⊕ Nat) → Option mem_chunk} {o : alloc_op}
    (hp : st.w.use_pool = true) (h : Running st T) (hs : st.step A o = some st') : st'.Kept := by
  cases o with
  | alloc v s =>
    simp only [Program.step, mempool_alloc, hp, h.bailing] at hs
    split at hs
    next hv =>
      simp only [Bool.true_eq_false, Bool.false_eq_true, or_self, if_false,
        Option.map_eq_some_iff] at hs
      obtain ⟨r, hr, rfl⟩ := hs
      split at hr
      next hne =>
        rw [Option.some.injEq] at hr
        subst hr
        have hn : s ≠ 0 := by
          rintro rfl
          exact hne rfl
        exact ⟨hp, Or.inl (h.new_chunk A v hn rfl rfl).2⟩
      next => cases hr
    next => cases hs
  | realloc v n =>
    simp only [Program.step] at hs
    split at hs
    next p old hv =>
      rw [Option.some.injEq] at hs
      subst hs
      have hheld : p ≠ 0 → ∃ c, T (some (.inl v)) = some c ∧ c.ptr = p := by
        intro hne
        obtain ⟨c, hc, hptr, -⟩ := h.ptrs v p old hv hne
        exact ⟨c, hc, hptr⟩
      obtain ⟨huse, hrun⟩ := h.realloc A hp (n := n) hheld
      exact ⟨huse, Or.inl hrun⟩
    next =>
      rw [Option.some.injEq] at hs
      subst hs
      obtain ⟨huse, hrun⟩ := h.realloc A hp (v := v) (n := n) fun hne => absurd rfl hne
      exact ⟨huse, Or.inl hrun⟩
  | free v =>
    simp only [Program.step, Option.map_eq_some_iff] at hs
    obtain ⟨⟨p, old⟩, hv, rfl⟩ := hs
    obtain ⟨huse, hrun⟩ := h.free hp hv
    exact ⟨huse, Or.inl hrun⟩
  | acquire u n =>
    simp only [Program.step] at hs
    split at hs
    next =>
      rw [Option.some.injEq] at hs
      subst hs
      exact ⟨hp, Or.inl (h.acquire A u n)⟩
    next => cases hs
  | release u =>
    simp only [Program.step, Option.map_eq_some_iff] at hs
    obtain ⟨c, hc, rfl⟩ := hs
    exact ⟨hp, Or.inl (h.release hc)⟩
  | exit =>
    simp only [Program.step, Option.some.injEq] at hs
    subst hs
    exact ⟨hp, Or.inr h.exit⟩

theorem Exiting.point {st : Program} (h : Exiting st) {v n : Nat} {r : Nat × World}
    (hb : r.2.pool.bailing = true) (hs : Sound r.2.pool fun _ : Unit => none)
    (hother : ∀ p, Stays st.w.pool p → Stays r.2.pool p) (hown : r.1 ≠ 0 → Stays r.2.pool r.1) :
    Exiting (st.point v n r) where
  bailing := hb
  sound := hs
  ptrs := by
    intro u p old hu hp
    rcases update_eq_some.mp hu with ⟨rfl, hgot⟩ | ⟨-, hu⟩
    · cases hgot
      exact hown hp
    · exact hother p (h.ptrs u p old hu hp)

/-- `malloc` is all that the allocation functions do in a program that exits. -/
theorem Exiting.malloc {st : Program} (h : Exiting st) (v n : Nat) :
    Exiting (st.point v n (st.w.new_array A n)) :=
  h.point h.bailing (h.sound.grow_heap A n) (fun _ hp => hp.from_heap A n)
    fun _ => h.sound.new_block_stays A n

theorem exiting_step {st st' : Program} {o : alloc_op} (hp : st.w.use_pool = true)
    (h : Exiting st) (hs : st.step A o = some st') : st'.Kept := by
  have hbail := h.bailing
  cases o with
  | alloc v s =>
    simp only [Program.step, mempool_alloc, hbail, or_true, if_true, Option.map_some] at hs
    split at hs
    next =>
      rw [Option.some.injEq] at hs
      subst hs
      exact ⟨hp, Or.inr (h.malloc A v s)⟩
    next => cases hs
  | realloc v n =>
    have hmalloc : ∀ p, mempool_realloc A p n st.w = st.w.new_array A n := by
      intro p
      unfold mempool_realloc
      rw [if_neg (by simp [hp] : ¬ st.w.use_pool = false), if_pos hbail]
    simp only [Program.step, hmalloc] at hs
    split at hs
    all_goals
      rw [Option.some.injEq] at hs
      subst hs
      exact ⟨hp, Or.inr (h.malloc A v n)⟩
  | free v =>
    simp only [Program.step, Option.map_eq_some_iff] at hs
    obtain ⟨⟨p, old⟩, hv, rfl⟩ := hs
    have hsame : mempool_free p st.w = st.w := by
      unfold mempool_free
      rw [if_pos hbail]
    simp only [hsame]
    refine ⟨hp, Or.inr ⟨hbail, h.sound, ?_⟩⟩
    intro u q m hu hq
    obtain ⟨-, hu⟩ := update_none_eq_some.mp hu
    exact h.ptrs u q m hu hq
  | acquire u n =>
    simp only [Program.step] at hs
    split at hs
    next =>
      rw [Option.some.injEq] at hs
      subst hs
      refine ⟨hp, Or.inr ⟨(acquire_bailing A st.w.pool n).trans hbail, ?_, ?_⟩⟩
      · by_cases hn : n = 0
        · subst hn
          exact h.sound
        · have hs := (h.sound.acquire A (i := ()) hn).1
          exact hs.drop fun _ _ hc => by cases hc
      · exact fun v p old hv hne => (h.ptrs v p old hv hne).acquire A n
    next => cases hs
  | release u =>
    simp only [Program.step, Option.map_eq_some_iff] at hs
    obtain ⟨c, hc, rfl⟩ := hs
    have hsame : st.w.release c = st.w := by
      simp [World.release, memPool.release, hbail]
    rw [hsame]
    exact ⟨hp, Or.inr ⟨hbail, h.sound, h.ptrs⟩⟩
  | exit =>
    have hsame : { st with w := { st.w with pool := { st.w.pool with bailing := true } } } = st := by
      rw [← hbail]
    simp only [Program.step, hsame, Option.some.injEq] at hs
    subst hs
    exact ⟨hp, Or.inr h⟩

theorem kept_step {st st' : Program} {o : alloc_op} (h : st.Kept)
    (hs : st.step A o = some st') : st'.Kept := by
  obtain ⟨hp, ⟨T, hr⟩ | he⟩ := h
  · exact running_step A hp hr hs
  · exact exiting_step A hp he hs

theorem kept_start (canary_sz n₁ n₂ n₃ n₄ n₅ : Nat) (mem : Nat → UInt8) :
    (Program.start (memPool.init A canary_sz n₁ n₂ n₃ n₄ n₅) mem).Kept := by
  have hflags := allocate_flags A canary_sz (counts n₁ n₂ n₃ n₄ n₅) { bucket := fun _ => {} }
  refine ⟨rfl, Or.inl ⟨fun _ => none, hflags.1, Sound.init A canary_sz n₁ n₂ n₃ n₄ n₅ ?_, ?_, ?_⟩⟩
  · exact fun _ => rfl
  · intro v p old hv
    cases hv
  · intro u c hu
    cases hu

/-! ## When the data is kept -/

variable {w : World} {ι : Type*} {T : ι → Option mem_chunk} {i : ι} {c : mem_chunk}

/-- The chunk of a pointer that got another one was given back. -/
theorem given_back {w w' : memPool} (h : Sound w' T) (hc : T i = some c)
    (hb : w'.bailing = false) (hsame : SamePlaces w w') (hbad : w'.heap.bad = w.heap.bad) :
    GivenBack w (w'.release c) c.ptr := by
  have hne := (h.backed i c hc).1
  rcases h.release_cases hc hb with ⟨id, hcv, heq⟩ | ⟨hlive, hm, heq⟩
  · rw [heq]
    have hmine := carved_is_mine (h.shaped id) hcv
    refine ⟨?_, ?_, hbad⟩
    · intro id' hid'
      rw [← hsame.is_mine] at hid'
      have hid := h.mine_once id' id c.ptr hid' hmine
      subst hid
      have hnot : c.ptr ∉ w'.free id' := by
        intro hin
        obtain ⟨f, hf, hptr⟩ := List.mem_map.mp hin
        exact h.held_not_free i c id' hc f hf hptr
      unfold memPool.free at *
      rw [put_bucket, if_pos rfl, List.map_cons, List.count_cons_self,
        List.count_eq_zero_of_not_mem hnot]
    · intro hno
      rw [hsame.is_mine, hno id] at hmine
      cases hmine
  · rw [heq, free_heap_live hne hlive]
    refine ⟨?_, ?_, hbad⟩
    · intro id hid
      rw [← hsame.is_mine, hm id] at hid
      cases hid
    · intro _ b hin
      simpa using (List.mem_filter.mp hin).2

theorem acquire_bad (w : memPool) (n : Nat) : (w.acquire A n).2.heap.bad = w.heap.bad := by
  by_cases hn : n = 0
  · subst hn
    rfl
  · rcases acquire_cases A w hn with ⟨id, d, rest, -, -, heq⟩ | ⟨-, heq⟩
    · rw [heq]
      rfl
    · rw [heq]
      rfl

/-- The new place of a chunk that is out. -/
theorem moves {n : Nat} (h : Sound w.pool T) (hc : T i = some c) (hb : w.pool.bailing = false)
    (hn : n ≠ 0) :
    (∃ m, extent ((w.pool.acquire A n).2.release
        { ptr := c.ptr, capacity := w.pool.find_ptr_size c.ptr })
        (w.pool.acquire A n).1.ptr = some m ∧ n ≤ m) ∧
      GivenBack w.pool ((w.pool.acquire A n).2.release
        { ptr := c.ptr, capacity := w.pool.find_ptr_size c.ptr }) c.ptr ∧
      (w.pool.acquire A n).1.ptr ≠ c.ptr := by
  classical
  have hspare : Sound w.pool fun o : Option ι => o.bind T := by
    refine h.rename (fun o => o.getD i) ?_ ?_
    · rintro (_ | j) d hd
      · cases hd
      · exact ⟨d, hd, rfl, rfl, fun ht => ht⟩
    · rintro (_ | j) (_ | j') d d' hd hd' hj
      · cases hd
      · cases hd
      · cases hd'
      · exact congrArg some hj
  have hplaces := acquire_same_places A w.pool n
  obtain ⟨hs, -⟩ := hspare.acquire A (i := none) hn
  have hheld : Function.update (fun o : Option ι => o.bind T) none
      (some (w.pool.acquire A n).1) (some i) = some c := by
    rw [Function.update_of_ne (by simp)]
    exact hc
  have hrelease := hs.release_by_address hheld
  rw [hplaces.find_ptr_size] at hrelease
  rw [hrelease]
  obtain ⟨hx, hle⟩ := hspare.exchange A (i := some i) (j := none) (by simp) hc hn
  have hgot : Function.update (Function.update (Function.update (fun o : Option ι => o.bind T) none
      (some (w.pool.acquire A n).1)) (some i) (some (w.pool.acquire A n).1)) none none (some i) =
      some (w.pool.acquire A n).1 := by
    rw [Function.update_of_ne (by simp), Function.update_self]
  have hback := hx.backed _ _ hgot
  refine ⟨⟨_, hx.extent_of_backed hback.1 hback.2.2, hle⟩, ?_, ?_⟩
  · exact given_back hs hheld ((acquire_bailing A w.pool n).trans hb) hplaces
      (acquire_bad A w.pool n)
  · intro heq
    have hsame := hs.held_once none (some i) _ c (Function.update_self ..) hheld heq
    cases hsame

theorem keeps_data_iff {old n : Nat} (h : Sound w.pool T) (hc : T i = some c)
    (hp : w.use_pool = true) (hb : w.pool.bailing = false) (hold : old ≤ c.capacity) (hn : 0 < n) :
    KeepsData A w c.ptr old n ↔
      (∃ id, (w.pool.bucket id).is_mine c.ptr = true) ∨ old = 0 := by
  have hne := (h.backed i c hc).1
  have hcases := fun mem => realloc_cases A (w := { w with mem }) hp hb c.ptr n
    fun hn => h.acquire_ptr A hn
  simp only [hne, ne_eq, not_false_eq_true, if_true, true_and] at hcases
  obtain ⟨hextent, hgiven, hapart⟩ := moves A h hc hb (Nat.ne_of_gt hn)
  constructor
  · intro hkeep
    by_contra hno
    rw [not_or, not_exists] at hno
    have hfind : w.pool.find_by_address c.ptr = none :=
      find_by_address_none.mpr fun id => by simpa using hno.1 id
    have hsize : w.pool.find_ptr_size c.ptr = 0 := by
      simp [memPool.find_ptr_size, hfind]
    -- memory that differs at the old place and at the new one
    let mem : Nat → UInt8 := fun a => if a = c.ptr then 1 else 0
    rcases hcases mem with ⟨hfit, -⟩ | ⟨-, hptr, -, -, hmem⟩
    · omega
    · simp only [hsize, not_true_eq_false, if_false] at hmem
      have hmoved := hkeep mem (by rw [hptr]; exact h.acquire_ptr A (Nat.ne_of_gt hn))
      have hbyte := hmoved.bytes 0 (by omega)
      rw [hptr, hmem] at hbyte
      simp [mem, hapart] at hbyte
  · intro hpooled mem _
    rcases hcases mem with ⟨hfit, heq⟩ | ⟨hgrow, hptr, -, hpool, hmem⟩
    · rw [heq]
      have hcap := h.find_ptr_size_le hc
      have hback := h.backed i c hc
      exact ⟨⟨c.capacity, h.extent_of_backed hne hback.2.2, by omega⟩, fun _ _ => rfl, Or.inl rfl⟩
    · refine ⟨?_, ?_, Or.inr ?_⟩
      · rw [hptr, hpool]
        exact hextent
      · intro k hk
        rcases hpooled with ⟨id, hmine⟩ | rfl
        · rcases h.find_held hc with ⟨id', hfind, -, hcap, -⟩ | ⟨hfind, -⟩
          · have hsize : w.pool.find_ptr_size c.ptr = c.capacity := by
              simp [memPool.find_ptr_size, hfind, hcap]
            have hpos := (h.backed i c hc).2.1
            have hin : k < min n c.capacity := by omega
            rw [hptr, hmem, hsize, if_pos (by omega)]
            simp only [World.memcpy]
            rw [if_pos (by omega), Nat.add_sub_cancel_left]
          · rw [find_by_address_none.mp hfind id] at hmine
            cases hmine
        · omega
      · rw [hpool]
        exact hgiven

theorem exiting_loses {st : Program} (h : Exiting st) (hp : st.w.use_pool = true) {v p old n : Nat}
    (hv : st.ptrs v = some (p, old)) (hne : p ≠ 0) : ¬ KeepsData A st.w p old n := by
  intro hkeep
  have hpool : ¬ st.w.use_pool = false := by simp [hp]
  have hmalloc : mempool_realloc A p n { st.w with mem := st.w.mem } = st.w.new_array A n := by
    unfold mempool_realloc
    rw [if_neg hpool, if_pos h.bailing]
  have hmoved := hkeep st.w.mem
  rw [hmalloc] at hmoved
  obtain ⟨⟨m, hm⟩, hfree⟩ := h.ptrs v p old hv hne
  rcases (hmoved (A.place_ne_null _ _ _)).released with heq | hgiven
  · -- the new block is apart from the old one, which is still there
    cases hm with
    | carved id hcv _ =>
      have hmine := carved_is_mine (h.sound.shaped id) hcv
      rw [← heq] at hmine
      rw [show (st.w.new_array A n).1 = (st.w.pool.from_heap A n).1.ptr from rfl,
        h.sound.from_heap_not_mine A n id] at hmine
      cases hmine
    | heap hl _ =>
      have hapart := A.place_apart st.w.pool.heap.asked st.w.pool.heap.live n _ hl
      simp only [World.new_array, Heap.alloc] at heq
      simp only [Block.Apart] at hapart
      omega
  · cases hm with
    | carved id hcv _ =>
      have hcount := hgiven.pool id (carved_is_mine (h.sound.shaped id) hcv)
      have hin : p ∈ (st.w.new_array A n).2.pool.free id :=
        List.count_pos_iff.mp (by rw [hcount]; exact Nat.one_pos)
      obtain ⟨f, hf, hptr⟩ := List.mem_map.mp hin
      exact hfree id f hf hptr
    | heap hl hno => exact hgiven.heap hno _ (List.mem_cons_of_mem _ hl) rfl

/-- The states in which a reallocation of a pointer to any size keeps the data are those in which
the pointer has a bucket, or nothing was asked for, and the program does not exit. -/
def KeepsPooled (st : Program) : Prop :=
  ∀ v p old n, st.ptrs v = some (p, old) → p ≠ 0 → 0 < n →
    (KeepsData A st.w p old n ↔
      st.w.pool.bailing = false ∧ ((∃ id, (st.w.pool.bucket id).is_mine p = true) ∨ old = 0))

theorem kept_keeps_pooled {st : Program} (h : st.Kept) : KeepsPooled A st := by
  intro v p old n hv hne hn
  obtain ⟨hp, ⟨T, hr⟩ | he⟩ := h
  · obtain ⟨c, hc, rfl, hold⟩ := hr.ptrs v p old hv hne
    rw [keeps_data_iff A hr.sound hc hp hr.bailing hold hn]
    simp [hr.bailing]
  · constructor
    · exact fun hkeep => absurd hkeep (exiting_loses A he hp hv hne)
    · rintro ⟨hb, -⟩
      rw [he.bailing] at hb
      cases hb

theorem kept_always (canary_sz n₁ n₂ n₃ n₄ n₅ : Nat) (mem : Nat → UInt8) (ops : List alloc_op) :
    Always (Program.step A) Program.Kept
      (.start (memPool.init A canary_sz n₁ n₂ n₃ n₄ n₅) mem) ops :=
  always_of_step (fun _ _ _ h hs => kept_step A h hs)
    (kept_start A canary_sz n₁ n₂ n₃ n₄ n₅ mem) ops

/-- In each run, reallocation keeps the data of a chunk from a bucket, and loses that of a block of
the heap. -/
theorem only_pooled_data_is_kept (canary_sz n₁ n₂ n₃ n₄ n₅ : Nat) (mem : Nat → UInt8)
    (ops : List alloc_op) :
    Always (Program.step A) (KeepsPooled A)
      (.start (memPool.init A canary_sz n₁ n₂ n₃ n₄ n₅) mem) ops :=
  (kept_always A canary_sz n₁ n₂ n₃ n₄ n₅ mem ops).mono fun _ h => kept_keeps_pooled A h

/-- A state in which each reallocation keeps the data. -/
def KeepsAll (st : Program) : Prop :=
  ∀ v p old n, st.ptrs v = some (p, old) → p ≠ 0 → 0 < n → KeepsData A st.w p old n

/-- Is pointer 0 a block of the heap that is `old` bytes large? -/
def Program.heap_block (st : Program) (old : Nat) : Bool :=
  match st.ptrs 0 with
  | some (p, n) => p ≠ 0 && n = old && buckets.all fun id => !(st.w.pool.bucket id).is_mine p
  | none => false

theorem large_alloc_is_heap_block :
    ((exec (Program.step bump) (.start default_pool fun _ => 0) [.alloc 0 60000]).map fun st =>
      st.heap_block 60000) = some true := by
  simp only [default_pool, memPool.init, counts, memPool.allocate,
    init_memory_eq bump _ _ _ (bucket_id.sz_pos _)]
  decide +kernel

/-- OpenSSL asks for 60000 bytes, and then for more. -/
theorem a_large_block_loses_its_data :
    ¬ ∀ (A : Allocator) (canary_sz n₁ n₂ n₃ n₄ n₅ : Nat) (mem : Nat → UInt8)
      (ops : List alloc_op), Always (Program.step A) (KeepsAll A)
        (.start (memPool.init A canary_sz n₁ n₂ n₃ n₄ n₅) mem) ops := by
  intro hall
  obtain ⟨st, hst, hblock⟩ := Option.map_eq_some_iff.mp large_alloc_is_heap_block
  have hkept : st.Kept := always_exec (kept_always bump 0 10000 5000 5000 1000 800 _ _) hst
  have hkeeps : KeepsAll bump st := always_exec (hall bump 0 10000 5000 5000 1000 800 _ _) hst
  unfold Program.heap_block at hblock
  split at hblock
  next p n hv =>
    simp only [ne_eq, Bool.and_eq_true, decide_eq_true_eq, List.all_eq_true] at hblock
    obtain ⟨⟨hne, rfl⟩, hno⟩ := hblock
    have hdata : KeepsData bump st.w p 60000 70000 := hkeeps 0 p 60000 70000 hv hne (by decide)
    rcases (kept_keeps_pooled bump hkept 0 p 60000 70000 hv hne (by decide)).mp hdata with
      ⟨-, ⟨id, hmine⟩ | hzero⟩
    · have hid := hno id (mem_buckets id)
      rw [hmine] at hid
      cases hid
    · cases hzero
  next => cases hblock

end socle.membuf
