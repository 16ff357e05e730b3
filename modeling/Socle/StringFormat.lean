-- Formatted texts (common/stringformat.hpp): the buffer grows until the text fits
-- or the limit is reached, and as many bytes as the text has are copied from it.
import Socle.BufferLists
import Socle.PoolRealloc

namespace socle.stringformat

open mempool membuf lib.run lib.bytes

/-! ## The C library -/

def INT_MAX : Nat := 2147483647

/-- What a format and its arguments print: the complete text, and what `snprintf` has written to a
buffer of `n` bytes when it finds that the length of the text is no `int`. -/
structure printed where
  full : List UInt8
  cut : Nat → List UInt8

/-- `snprintf`. It writes at most `size` bytes, and the last of them is 0. -/
def printed.snprintf (t : printed) (buffer size : Nat) (w : World) : Int × World :=
  if t.full.length ≤ INT_MAX then
    (t.full.length, w.poke buffer (t.full.take (size - 1) ++ [0]))
  else (-1, w.poke buffer ((t.cut size).take (size - 1) ++ [0]))

/-! ## The functions -/

section

variable (A : Allocator) (room : Heap → Nat → Bool)

/-- `mempool_realloc` on a heap that may have no room for a block. Then `::realloc` and `::malloc`
give `nullptr`, and the old block stays. `new unsigned char[n]` throws `std::bad_alloc`. -/
def realloc_from (optr nsz : Nat) (w : World) : Option (Nat × World) :=
  if w.use_pool = false ∨ w.pool.bailing = true then
    if room w.pool.heap nsz then some (mempool_realloc A optr nsz w) else some (0, w)
  else
    let ptr_size := if optr ≠ 0 then w.pool.find_ptr_size optr else 0
    if ptr_size ≥ nsz ∨ (w.pool.acquire A nsz).1.pool_type = .POOL ∨ room w.pool.heap nsz then
      some (mempool_realloc A optr nsz w)
    else none

def cap : Nat := 512
def max : Nat := 20

/-- How a turn of the loop ends. -/
inductive turned
  | bad_alloc
  | no_buffer (w : World)
  | written (buffer written_n : Nat) (w : World)

/-- One turn of the loop. -/
def turn (t : printed) (cursize buffer : Nat) (w : World) : turned :=
  match realloc_from A room buffer cursize w with
  | none => .bad_alloc
  | some (buffer, w) =>
    if buffer = 0 then .no_buffer w
    else
      let w := w.poke buffer (List.replicate cursize 0)
      let (written_n, w) := t.snprintf buffer cursize w
      .written buffer (if written_n < 0 then cursize else written_n.toNat) w

/-- What `string_format` returns, and what it leaves. `copied` and `behind` say how many bytes it
read from the buffer, and how much memory stood there. -/
structure Formatted where
  ret : List UInt8
  w : World
  copied : Nat := 0
  behind : Option Nat := some 0

/-- The end of `string_format`. -/
def copy_out (buffer written_n : Nat) (w : World) : Formatted where
  ret := slice w.mem buffer written_n
  w := mempool_free buffer w
  copied := written_n
  behind := extent w.pool buffer

/-- The loop, where `left` is `max - mul`. `none` stands for `std::bad_alloc`. -/
def format_loop (t : printed) : Nat → Nat → Nat → World → Option Formatted
  | left, mul, buffer, w =>
    match turn A room t (cap * mul) buffer w with
    | .bad_alloc => none
    -- be polite
    | .no_buffer w => some { ret := [], w }
    | .written buffer written_n w =>
      match left with
      | left + 1 =>
        if written_n ≥ cap * mul then format_loop t left (mul + 1) buffer w
        else some (copy_out buffer written_n w)
      | 0 => some (copy_out buffer written_n w)

def string_format (t : printed) (w : World) : Option Formatted :=
  format_loop A room t (max - 1) 1 0 w

/-! ## The law -/

/-- The pool and the heap are as they were: what was taken was given back, once. -/
structure Restored (w w' : memPool) : Prop where
  free : ∀ id, w'.free id = w.free id
  live : w'.heap.live = w.heap.live
  once : w'.heap.bad = w.heap.bad

/-- The buffer after `k` calls of `mempool_realloc`, when each of them gives one. -/
def served (w : World) : Nat → Option (Nat × World)
  | 0 => some (0, w)
  | k + 1 => (served w k).bind fun r =>
    (realloc_from A room r.1 (cap * (k + 1)) r.2).filter fun r' => r'.1 ≠ 0

/-- The buffer can be grown so that it holds `n` bytes and a terminator. -/
def Holdable (w : World) (n : Nat) : Prop :=
  ∃ k ≤ max, n < cap * k ∧ (served A room w k).isSome

/-- A right result: the whole text if the buffer can hold it, else the first bytes of it. It is
copied from inside of the buffer, which is given back. -/
structure Right (t : printed) (w : World) (f : Formatted) : Prop where
  whole : Holdable A room w t.full.length → f.ret = t.full
  part : f.ret <+: t.full
  inside : ∃ m, f.behind = some m ∧ f.copied ≤ m
  restored : Restored w.pool f.w.pool

def Formats (t : printed) (w : World) : Prop :=
  ∃ f, string_format A room t w = some f ∧ Right A room t w f

/-! ## When it holds -/

/-- How many turns the text takes. -/
def printed.turns (t : printed) : Nat :=
  if t.full.length < cap * max then t.full.length / cap + 1 else max

/-- The bytes of a buffer of `size` bytes, behind `snprintf`. -/
def printed.bytes (t : printed) (size : Nat) : List UInt8 :=
  let written := (if t.full.length ≤ INT_MAX then t.full else t.cut size).take (size - 1) ++ [0]
  written ++ List.replicate (size - written.length) 0

/-- The text is shorter than the largest buffer. Or it is just as long, or its length is no `int`,
and the whole buffer holds bytes of the text, the terminator included. -/
def Short (t : printed) : Prop :=
  t.full.length < cap * max ∨
    (t.full.length = cap * max ∨ INT_MAX < t.full.length) ∧ t.bytes (cap * max) <+: t.full

/-- There is no buffer at all. Or the program does not exit, each turn that the text takes gets its
buffer, and the text is short. -/
def Fits (t : printed) (w : World) : Prop :=
  (realloc_from A room 0 cap w).map Prod.fst = some 0 ∨
    w.pool.bailing = false ∧ (served A room w t.turns).isSome ∧ Short t

end

/-! ## A buffer that is out -/

section

variable {w w' w'' : memPool} {p p' m m' : Nat}

/-- The buffer at `p` was on top of the stack of a bucket, or it is the newest block of the heap. -/
inductive Borrowed (w w' : memPool) (p m : Nat) : Prop
  | chunk (id : bucket_id) (size : m = id.sz) (top : w.free id = p :: w'.free id)
      (rest : ∀ id' ≠ id, w'.free id' = w.free id') (live : w'.heap.live = w.heap.live)
  | block (free : ∀ id, w'.free id = w.free id) (live : w'.heap.live = ⟨p, m⟩ :: w.heap.live)
      (own : ∀ id, (w.bucket id).is_mine p = false) (ne : p ≠ 0)
      (apart : ∀ b ∈ w.heap.live, Block.Apart ⟨p, m⟩ b)

/-- The buffer at `p` is all that is missing. -/
structure Out (w w' : memPool) (p m : Nat) : Prop where
  borrowed : Borrowed w w' p m
  places : SamePlaces w w'
  bad : w'.heap.bad = w.heap.bad
  bailing : w'.bailing = w.bailing

/-- A pool whose buckets are in their places, with chunks of theirs. -/
structure Whole (w : memPool) : Prop extends Laid w where
  carved : ∀ id, ∀ p ∈ w.free id, (w.bucket id).Carved p

theorem free_put (w : memPool) (id id' : bucket_id) (st : List mem_chunk) :
    (w.put id { w.bucket id with bucket := st }).free id' =
      if id' = id then st.map mem_chunk.ptr else w.free id' := by
  unfold memPool.free
  rw [put_bucket]
  split <;> rfl

theorem whole_of_sound {ι : Type*} {T : ι → Option mem_chunk} (h : Sound w T) : Whole w := by
  refine ⟨h.toLaid, ?_⟩
  intro id p hp
  obtain ⟨c, hc, rfl⟩ := List.mem_map.mp hp
  exact (h.free_carved id c hc).1

theorem found (h : Laid w) {id : bucket_id} (hp : (w.bucket id).Carved p) :
    w.find_by_address p = some id := by
  have hmine := carved_is_mine (h.shaped id) hp
  cases hfind : w.find_by_address p with
  | none =>
    rw [find_by_address_none.mp hfind id] at hmine
    cases hmine
  | some id' => rw [h.mine_once id' id p (find_by_address_some hfind) hmine]

/-- A block of the heap belongs to no bucket, wherever the chunks are. -/
theorem not_found (hplaces : SamePlaces w w') (hown : ∀ id, (w.bucket id).is_mine p = false) :
    w'.find_by_address p = none := by
  rw [find_by_address_none]
  intro id
  rw [hplaces.is_mine]
  exact hown id

theorem addr_of_apart {b : Block} (h : Block.Apart ⟨p, m⟩ b) : b.addr ≠ p := by
  unfold Block.Apart at h
  simp only at h
  omega

theorem Out.laid (h : Whole w) (ho : Out w w' p m) : Laid w' := by
  cases ho.borrowed with
  | chunk id size top rest live => exact ho.places.laid h.toLaid live
  | block free live own ne apart =>
    have hblock : Laid { w with heap := { w.heap with live := ⟨p, m⟩ :: w.heap.live } } := by
      refine ⟨h.shaped, h.mine_once, ?_, ?_, ?_⟩
      · exact fun id hlt => List.mem_cons_of_mem _ (h.region_live id hlt)
      · exact List.pairwise_cons.mpr ⟨apart, h.live_apart⟩
      · intro b hb
        rcases List.mem_cons.mp hb with rfl | hb
        · exact ne
        · exact h.live_ne_null b hb
    exact SamePlaces.laid (w := { w with heap := { w.heap with live := ⟨p, m⟩ :: w.heap.live } })
      ho.places hblock live

theorem Out.whole (h : Whole w) (ho : Out w w' p m) : Whole w' := by
  refine ⟨ho.laid h, ?_⟩
  intro id q hq
  rw [ho.places.carved]
  apply h.carved
  cases ho.borrowed with
  | chunk id' size top rest live =>
    by_cases hid : id = id'
    · rw [hid, top, ← hid]
      exact List.mem_cons_of_mem _ hq
    · rwa [← rest id hid]
  | block free live own ne apart => rwa [← free id]

/-- A chunk that is out is known to its bucket. -/
theorem Out.found_top (h : Whole w) (ho : Out w w' p m) {id : bucket_id}
    (htop : w.free id = p :: w'.free id) :
    (w'.bucket id).Carved p ∧ w'.find_by_address p = some id := by
  have hcarved : (w'.bucket id).Carved p := by
    rw [ho.places.carved]
    apply h.carved
    rw [htop]
    exact List.mem_cons_self
  exact ⟨hcarved, found (ho.laid h) hcarved⟩

/-- What stands behind the buffer. -/
theorem Out.find (h : Whole w) (ho : Out w w' p m) :
    p ≠ 0 ∧ extent w' p = some m ∧
      (w'.find_by_address p = none ∨ ∃ id, w'.find_by_address p = some id ∧ m = id.sz) := by
  cases ho.borrowed with
  | chunk id size top rest live =>
    obtain ⟨hcarved, hfound⟩ := ho.found_top h top
    have hne := (ho.laid h).carved_ne_null hcarved
    refine ⟨hne, ?_, Or.inr ⟨id, hfound, size⟩⟩
    simp [extent, hne, hfound, hcarved, size]
  | block free live own ne apart =>
    have hnone : w'.find_by_address p = none := not_found ho.places own
    refine ⟨ne, ?_, Or.inl hnone⟩
    simp [extent, ne, hnone, live]

/-- The largest chunk that is picked. -/
theorem pick_bucket_le {s : Nat} {id : bucket_id} (h : pick_bucket s = some id)
    (hs : s ≤ cap * max) : id.sz ≤ cap * max := by
  unfold pick_bucket at h
  unfold cap max at *
  grind [bucket_id.sz]

variable (A : Allocator) {n : Nat}

theorem out_from_heap (h : Laid w) (n : Nat) :
    Out w (w.from_heap A n).2 (w.from_heap A n).1.ptr n where
  borrowed := .block (fun _ => rfl) rfl (h.from_heap_not_mine A n) (A.place_ne_null _ _ _)
    (A.place_apart _ _ _)
  places := fun _ => ⟨rfl, rfl, rfl, rfl⟩
  bad := rfl
  bailing := rfl

theorem out_acquire (h : Laid w) (hn : n ≠ 0) :
    ∃ m, Out w (w.acquire A n).2 (w.acquire A n).1.ptr m ∧ n ≤ m ∧
      (n ≤ cap * max → m ≤ cap * max) := by
  rcases acquire_cases A w hn with ⟨id, c, rest, hpick, hstack, heq⟩ | ⟨-, heq⟩
  · rw [heq]
    refine ⟨id.sz, ⟨.chunk id rfl ?_ ?_ rfl, same_places_put w id rest, rfl, rfl⟩,
      pick_bucket_fits hpick, pick_bucket_le hpick⟩
    · rw [free_put, if_pos rfl, memPool.free, hstack]
      rfl
    · intro id' hid
      rw [free_put, if_neg hid]
  · rw [heq]
    exact ⟨n, out_from_heap A h n, Nat.le_refl n, id⟩

/-! ## Giving back -/

theorem release_chunk {id : bucket_id} (hfind : w.find_by_address p = some id) (hne : p ≠ 0)
    (hb : w.bailing = false) (c : Nat) : w.release { ptr := p, capacity := c } =
      w.put id { w.bucket id with
        bucket := { ptr := p, capacity := c, in_pool := true } :: (w.bucket id).bucket } := by
  have hmine := find_by_address_some hfind
  simp [memPool.release, hne, hb, hfind, Bucket.release, hmine]

theorem release_block (hfind : w.find_by_address p = none) (hne : p ≠ 0) (hb : w.bailing = false)
    (c : Nat) : w.release { ptr := p, capacity := c } = w.free_heap { ptr := p, capacity := c } := by
  simp [memPool.release, hne, hb, hfind]

/-- The heap takes the block at `p` back. -/
theorem free_heap_block (hne : p ≠ 0) (hlive : ⟨p, m⟩ ∈ w.heap.live) (c : Nat) :
    w.free_heap { ptr := p, capacity := c } =
      { w with heap := { w.heap with live := w.heap.live.filter fun b => b.addr ≠ p } } :=
  @free_heap_live w { ptr := p, capacity := m } hne hlive

theorem Borrowed.live_mem {b : Block} (h : Borrowed w w' p m) (hb : b ∈ w.heap.live) :
    b ∈ w'.heap.live := by
  cases h with
  | chunk id size top rest live => rwa [live]
  | block free live own ne apart =>
    rw [live]
    exact List.mem_cons_of_mem _ hb

/-- The newer of two blocks stays. -/
theorem Borrowed.freed (hnew : Borrowed w' w'' p' m')
    (hlive : w'.heap.live = ⟨p, m⟩ :: w.heap.live) (hapart : ∀ b ∈ w.heap.live, Block.Apart ⟨p, m⟩ b)
    (hfree : ∀ id, w'.free id = w.free id) (hplaces : SamePlaces w w') :
    Borrowed w { w'' with heap :=
      { w''.heap with live := w''.heap.live.filter fun b => b.addr ≠ p } } p' m' := by
  have hothers : ∀ b ∈ w.heap.live, ¬ b.addr = p := fun b hb => addr_of_apart (hapart b hb)
  cases hnew with
  | chunk id size top rest live =>
    apply Borrowed.chunk id size
    · rw [← hfree id, top]
      rfl
    · intro id' hid
      rw [← hfree id', ← rest id' hid]
      rfl
    · simpa [live, hlive] using hothers
  | block free live own ne apart =>
    have hold : Block.Apart ⟨p', m'⟩ ⟨p, m⟩ := apart _ (by rw [hlive]; exact List.mem_cons_self)
    have hpp : p' ≠ p := fun heq => addr_of_apart hold heq.symm
    apply Borrowed.block
    · intro id
      rw [← hfree id, ← free id]
      rfl
    · simpa [live, hlive, hpp] using hothers
    · intro id
      rw [← hplaces.is_mine]
      exact own id
    · exact ne
    · intro b hb
      exact apart b (by rw [hlive]; exact List.mem_cons_of_mem _ hb)

/-- The bucket gets the older chunk back. -/
theorem Borrowed.put_back {id : bucket_id} {st : mem_chunk} (hnew : Borrowed w' w'' p' m')
    (htop : w.free id = st.ptr :: w'.free id) (hrest : ∀ id' ≠ id, w'.free id' = w.free id')
    (hlive : w'.heap.live = w.heap.live) (hplaces : SamePlaces w w') (hgrow : id.sz < m') :
    Borrowed w (w''.put id { w''.bucket id with bucket := st :: (w''.bucket id).bucket }) p' m' := by
  cases hnew with
  | chunk id' size top rest live =>
    have hid : id ≠ id' := by
      rintro rfl
      omega
    refine .chunk id' size ?_ ?_ (live.trans hlive)
    · rw [free_put, if_neg hid.symm, ← hrest id' hid.symm, top]
    · intro id'' hid''
      rw [free_put]
      split
      next heq =>
        rw [heq, htop, ← rest id hid]
        rfl
      next hne => rw [rest id'' hid'', hrest id'' hne]
  | block free live own ne apart =>
    refine .block ?_ ?_ ?_ ne ?_
    · intro id''
      rw [free_put]
      split
      next heq =>
        rw [heq, htop, ← free id]
        rfl
      next hne => rw [free id'', hrest id'' hne]
    · rw [← hlive]
      exact live
    · intro id''
      rw [← hplaces.is_mine]
      exact own id''
    · rw [← hlive]
      exact apart

/-- The buffer is exchanged for a larger one. -/
theorem Out.exchange (h : Whole w) (ho : Out w w' p m) (ho' : Out w' w'' p' m')
    (hgrow : w'.find_ptr_size p < m') (hb : w.bailing = false) (c : Nat) :
    Out w (w''.release { ptr := p, capacity := c }) p' m' := by
  obtain ⟨hne, -, -⟩ := ho.find h
  have hb'' : w''.bailing = false := by rw [ho'.bailing, ho.bailing, hb]
  have hplaces := ho.places.trans ho'.places
  have hbad := ho'.bad.trans ho.bad
  have hbailing := ho'.bailing.trans ho.bailing
  cases ho.borrowed with
  | chunk id size top rest live =>
    obtain ⟨-, hfind'⟩ := ho.found_top h top
    have hfind : w''.find_by_address p = some id := by
      unfold memPool.find_by_address at hfind' ⊢
      simpa only [ho'.places.is_mine] using hfind'
    have hsz : id.sz < m' := by simpa [memPool.find_ptr_size, hfind'] using hgrow
    rw [release_chunk hfind hne hb'']
    exact ⟨ho'.borrowed.put_back top rest live ho.places hsz,
      hplaces.trans (same_places_put w'' id _), hbad, hbailing⟩
  | block free live own ne apart =>
    have hfind : w''.find_by_address p = none := not_found hplaces own
    have hin : ⟨p, m⟩ ∈ w''.heap.live :=
      ho'.borrowed.live_mem (by rw [live]; exact List.mem_cons_self)
    rw [release_block hfind hne hb'', free_heap_block hne hin]
    exact ⟨ho'.borrowed.freed live apart free ho.places,
      hplaces.trans fun _ => ⟨rfl, rfl, rfl, rfl⟩, hbad, hbailing⟩

theorem restored_block (hlive : w'.heap.live = ⟨p, m⟩ :: w.heap.live)
    (hapart : ∀ b ∈ w.heap.live, Block.Apart ⟨p, m⟩ b) (hfree : ∀ id, w'.free id = w.free id)
    (hbad : w'.heap.bad = w.heap.bad) (hne : p ≠ 0) (c : Nat) :
    Restored w (w'.free_heap { ptr := p, capacity := c }) := by
  have hothers : ∀ b ∈ w.heap.live, ¬ b.addr = p := fun b hb => addr_of_apart (hapart b hb)
  rw [free_heap_block hne (by rw [hlive]; exact List.mem_cons_self)]
  refine ⟨fun id => ?_, ?_, hbad⟩
  · rw [← hfree id]
    rfl
  · simpa [hlive] using hothers

/-- The buffer is given back. -/
theorem Out.restored (h : Whole w) (ho : Out w w' p m) (hb : w.bailing = false) (c : Nat) :
    Restored w (w'.release { ptr := p, capacity := c }) := by
  obtain ⟨hne, -, -⟩ := ho.find h
  have hb' : w'.bailing = false := ho.bailing.trans hb
  cases ho.borrowed with
  | chunk id size top rest live =>
    obtain ⟨-, hfind⟩ := ho.found_top h top
    rw [release_chunk hfind hne hb']
    refine ⟨fun id' => ?_, live, ho.bad⟩
    rw [free_put]
    split
    next heq =>
      rw [heq, top]
      rfl
    next hid => exact rest id' hid
  | block free live own ne apart =>
    have hfind : w'.find_by_address p = none := not_found ho.places own
    rw [release_block hfind hne hb']
    exact restored_block live apart free ho.bad hne c

/-- As long as the buffer is out, something is missing. -/
theorem Out.not_restored (ho : Out w w' p m) : ¬ Restored w w' := by
  intro h
  cases ho.borrowed with
  | chunk id size top rest live =>
    have hlen := congrArg List.length (top.symm.trans (h.free id).symm)
    simp at hlen
  | block free live own ne apart =>
    have hlen := congrArg List.length (live.symm.trans h.live)
    simp at hlen

end

/-! ## One call -/

section

variable {A : Allocator} {room : Heap → Nat → Bool} {w w' w₁ : World} {p p₁ n size : Nat}

/-- A program that exits does not give back. -/
def Leaks (w : World) : Prop :=
  w.use_pool = true ∧ w.pool.bailing = true

theorem not_leaks_of_heap (h : w.use_pool = false) : ¬ Leaks w := by
  rintro ⟨hpool, -⟩
  rw [h] at hpool
  cases hpool

theorem not_leaks_of_running (h : w.pool.bailing = false) : ¬ Leaks w := by
  rintro ⟨-, hbail⟩
  rw [h] at hbail
  cases hbail

/-- The buffer at `p` has `size` bytes or more, and is all that is missing. In a program that exits,
the older buffers are missing, too. -/
structure Grown (w w' : World) (p size : Nat) : Prop where
  use_pool : w'.use_pool = w.use_pool
  bailing : w'.pool.bailing = w.pool.bailing
  out : ¬ Leaks w → ∃ m, Out w.pool w'.pool p m ∧ size ≤ m ∧ m ≤ cap * max ∧
    (w.use_pool = false → w'.pool.find_by_address p = none)
  leaked : Leaks w → w.pool.heap.live.length < w'.pool.heap.live.length

/-- There is no buffer yet, or one of `size` bytes. -/
def Held (w w' : World) (p size : Nat) : Prop :=
  p = 0 ∧ w' = w ∨ Grown w w' p size

theorem Held.flags (h : Held w w' p size) :
    w'.use_pool = w.use_pool ∧ w'.pool.bailing = w.pool.bailing := by
  rcases h with ⟨-, rfl⟩ | hg
  · exact ⟨rfl, rfl⟩
  · exact ⟨hg.use_pool, hg.bailing⟩

theorem Grown.not_restored (h : Grown w w' p size) : ¬ Restored w.pool w'.pool := by
  by_cases hl : Leaks w
  · intro hr
    have hlen := h.leaked hl
    rw [hr.live] at hlen
    exact absurd hlen (Nat.lt_irrefl _)
  · obtain ⟨m, hout, -⟩ := h.out hl
    exact hout.not_restored

/-- The buffer is given back, unless the program exits. -/
theorem Grown.freed (h : Whole w.pool) (hg : Grown w w' p size) :
    Restored w.pool (mempool_free p w').pool ↔ w.pool.bailing = false := by
  cases hb : w.pool.bailing with
  | true =>
    have hsame : mempool_free p w' = w' := by
      unfold mempool_free
      rw [if_pos (hg.bailing.trans hb)]
    rw [hsame]
    exact iff_of_false hg.not_restored (by simp)
  | false =>
    have hl : ¬ Leaks w := not_leaks_of_running hb
    obtain ⟨m, hout, hsize, -, hheap⟩ := hg.out hl
    have hb' : ¬ w'.pool.bailing = true := by simp [hg.bailing, hb]
    refine iff_of_true ?_ rfl
    unfold mempool_free
    rw [if_neg hb']
    have hfree : w'.pool.find_by_address p = none →
        Restored w.pool (w'.pool.free_heap { ptr := p, capacity := 0 }) := by
      intro hnone
      obtain ⟨hne, -, -⟩ := hout.find h
      have hrestored := hout.restored h hb 0
      rwa [release_block hnone hne (hg.bailing.trans hb)] at hrestored
    by_cases hp : w'.use_pool = false
    · rw [if_pos hp]
      exact hfree (hheap (hg.use_pool.symm.trans hp))
    · rw [if_neg hp]
      by_cases hzero : w'.pool.find_ptr_size p = 0
      · have hnone : w'.pool.find_by_address p = none := by
          unfold memPool.find_ptr_size at hzero
          split at hzero
          next id hfind => exact absurd hzero (Nat.ne_of_gt id.sz_pos)
          next hfind => exact hfind
        simp only [hzero, if_true]
        have hheaped : (w'.release { ptr := p, capacity := 0, pool_type := .HEAP }).pool =
            w'.pool.free_heap { ptr := p, capacity := 0 } := by
          obtain ⟨hne, -, -⟩ := hout.find h
          simp [World.release, memPool.release, hne, hg.bailing, hb, memPool.free_heap]
        rw [hheaped]
        exact hfree hnone
      · simp only [hzero, if_false]
        exact hout.restored h hb _

/-! ## One more call -/

theorem grown_of_out {m : Nat} (hl : ¬ Leaks w) (hu : w'.use_pool = w.use_pool)
    (ho : Out w.pool w'.pool p m) (hsize : size ≤ m) (hle : m ≤ cap * max)
    (hheap : w.use_pool = false → w'.pool.find_by_address p = none) : Grown w w' p size where
  use_pool := hu
  bailing := ho.bailing
  out := fun _ => ⟨m, ho, hsize, hle, hheap⟩
  leaked := fun h => absurd h hl

/-- A new block of the heap. -/
theorem grown_new (h : Whole w.pool) (hl : ¬ Leaks w) (hle : n ≤ cap * max) :
    Grown w (w.new_array A n).2 (w.new_array A n).1 n := by
  have hout : Out w.pool (w.new_array A n).2.pool (w.new_array A n).1 n :=
    out_from_heap A h.toLaid n
  have hsame : (w.new_array A n).2.use_pool = w.use_pool := rfl
  apply grown_of_out hl hsame hout (Nat.le_refl n) hle
  intro _
  rw [find_by_address_none]
  exact h.from_heap_not_mine A n

/-- `::realloc`. -/
theorem grown_realloc (h : Whole w.pool) (hp : w.use_pool = false) (hle : n ≤ cap * max)
    (hg : Grown w w' p size) : Grown w (w'.realloc A p n).2 (w'.realloc A p n).1 n := by
  have hl : ¬ Leaks w := not_leaks_of_heap hp
  obtain ⟨m, hout, -, -, hheap⟩ := hg.out hl
  have hnone := hheap hp
  cases hout.borrowed with
  | chunk id size top rest live =>
    rw [(hout.found_top h top).2] at hnone
    cases hnone
  | block free live own ne apart =>
    have hnew : Out w'.pool (w'.pool.from_heap A n).2 (w'.pool.from_heap A n).1.ptr n :=
      out_from_heap A (hout.laid h) n
    have hin : ⟨p, m⟩ ∈ (w'.pool.from_heap A n).2.heap.live :=
      hnew.borrowed.live_mem (by rw [live]; exact List.mem_cons_self)
    have hfind : w'.pool.heap.live.find? (fun b => b.addr = p) = some ⟨p, m⟩ := by
      rw [live]
      simp
    have hptr : (w'.realloc A p n).1 = (w'.pool.from_heap A n).1.ptr := by
      simp only [World.realloc, hfind]
      rfl
    have hpool : (w'.realloc A p n).2.pool =
        (w'.pool.from_heap A n).2.free_heap { ptr := p, capacity := 0 } := by
      simp only [World.realloc, hfind]
      rfl
    have hfreed : (w'.realloc A p n).2.use_pool = w.use_pool := by
      simp only [World.realloc, hfind]
      exact hg.use_pool
    rw [free_heap_block ne hin] at hpool
    have hplaces := hout.places.trans hnew.places
    apply grown_of_out hl hfreed (m := n) _ (Nat.le_refl n) hle
    · intro _
      rw [hptr, hpool, find_by_address_none]
      exact (hout.laid h).from_heap_not_mine A n
    · rw [hptr, hpool]
      exact ⟨hnew.borrowed.freed live apart free hout.places,
        hplaces.trans fun _ => ⟨rfl, rfl, rfl, rfl⟩, hnew.bad.trans hout.bad,
        hnew.bailing.trans hout.bailing⟩

/-- `mempool_realloc` from the pool. -/
theorem grown_pooled (h : Whole w.pool) (hp : w.use_pool = true) (hb : w.pool.bailing = false)
    (hn : n ≠ 0) (hle : n ≤ cap * max) (hold : Held w w' p size) :
    (mempool_realloc A p n w').1 ≠ 0 ∧
      Grown w (mempool_realloc A p n w').2 (mempool_realloc A p n w').1 n := by
  have hl : ¬ Leaks w := not_leaks_of_running hb
  have hheap : ∀ q, w.use_pool = false → (mempool_realloc A p n w').2.pool.find_by_address q = none := by
    intro q hfalse
    rw [hp] at hfalse
    cases hfalse
  have hp' : w'.use_pool = true := hold.flags.1.trans hp
  have hb' : w'.pool.bailing = false := hold.flags.2.trans hb
  have h' : Whole w'.pool := by
    rcases hold with ⟨-, rfl⟩ | hg
    · exact h
    · obtain ⟨m, hout, -⟩ := hg.out hl
      exact hout.whole h
  obtain ⟨m', hnew, hm', hmax⟩ := out_acquire A h'.toLaid hn
  obtain ⟨hne, -, -⟩ := hnew.find h'
  rcases realloc_cases A hp' hb' p n (fun _ => hne) with ⟨hfit, heq⟩ | ⟨hgrow, hptr, huse, hpool, -⟩
  · -- the buffer is large enough: it came from a bucket
    have hnull : p ≠ 0 := by
      rintro rfl
      exact hn (Nat.le_zero.mp hfit)
    rw [if_pos hnull] at hfit
    rcases hold with ⟨rfl, -⟩ | hg
    · exact absurd rfl hnull
    obtain ⟨m, hout, -, hmle, -⟩ := hg.out hl
    obtain ⟨-, -, hnone | ⟨id, hsome, hsz⟩⟩ := hout.find h
    · simp [memPool.find_ptr_size, hnone] at hfit
      exact absurd hfit hn
    · simp only [memPool.find_ptr_size, hsome] at hfit
      rw [heq]
      refine ⟨hnull, grown_of_out hl hg.use_pool hout (by omega) hmle ?_⟩
      intro hfalse
      rw [hp] at hfalse
      cases hfalse
  · rw [hptr]
    refine ⟨hne, ?_⟩
    rcases hold with ⟨rfl, rfl⟩ | hg
    · apply grown_of_out hl (huse.trans hp.symm) _ hm' (hmax hle) (hheap _)
      rw [hpool]
      exact hnew
    · obtain ⟨m, hout, -⟩ := hg.out hl
      obtain ⟨hnull, -, -⟩ := hout.find h
      rw [if_pos hnull] at hgrow hpool
      apply grown_of_out hl (huse.trans hp.symm) _ hm' (hmax hle) (hheap _)
      rw [hpool]
      exact hout.exchange h hnew (by omega) hb _

theorem realloc_null (h : Whole w.pool) : w.realloc A 0 n = w.new_array A n := by
  have hnone : w.pool.heap.live.find? (fun b => b.addr = 0) = none := by
    rw [List.find?_eq_none]
    intro b hb
    simpa using h.live_ne_null b hb
  simp only [World.realloc, hnone]

theorem new_array_ne (w : World) : (w.new_array A n).1 ≠ 0 :=
  A.place_ne_null _ _ _

theorem realloc_ne (w : World) (p : Nat) : (w.realloc A p n).1 ≠ 0 := by
  unfold World.realloc
  split
  · exact new_array_ne w
  · exact new_array_ne w

/-- `mempool_realloc` finds memory when the heap has some. -/
theorem mempool_realloc_ne (h : Whole w.pool) (hn : n ≠ 0) (hle : n ≤ cap * max)
    (hold : Held w w' p size) : (mempool_realloc A p n w').1 ≠ 0 := by
  obtain ⟨hu, hb⟩ := hold.flags
  by_cases hp : w.use_pool = false
  · unfold mempool_realloc
    rw [if_pos (hu.trans hp)]
    exact realloc_ne w' p
  · by_cases hbail : w.pool.bailing = true
    · unfold mempool_realloc
      rw [if_neg (by rw [hu]; exact hp), if_pos (hb.trans hbail)]
      exact new_array_ne w'
    · exact (grown_pooled h (by simpa using hp) (by simpa using hbail) hn hle hold).1

/-- A call that gives no buffer changes nothing. Any other one gives a larger buffer. -/
theorem grown_call (h : Whole w.pool) (hn : n ≠ 0) (hle : n ≤ cap * max)
    (hold : Held w w' p size)
    (hcall : realloc_from A room p n w' = some (p₁, w₁)) :
    if p₁ = 0 then w₁ = w' else Grown w w₁ p₁ n := by
  obtain ⟨hu, hb⟩ := hold.flags
  unfold realloc_from at hcall
  rw [hu, hb] at hcall
  by_cases hheap : w.use_pool = false ∨ w.pool.bailing = true
  · rw [if_pos hheap] at hcall
    by_cases hroom : room w'.pool.heap n = true
    · rw [if_pos hroom, Option.some.injEq] at hcall
      have hne : p₁ ≠ 0 := fun hz =>
        mempool_realloc_ne (A := A) h hn hle hold ((congrArg Prod.fst hcall).trans hz)
      rw [if_neg hne]
      by_cases hp : w.use_pool = false
      · have hrealloc : mempool_realloc A p n w' = w'.realloc A p n := by
          unfold mempool_realloc
          rw [if_pos (hu.trans hp)]
        rw [hrealloc] at hcall
        have hl : ¬ Leaks w := not_leaks_of_heap hp
        rcases hold with ⟨rfl, rfl⟩ | hg
        · rw [realloc_null h] at hcall
          have hgrown := grown_new (A := A) h hl hle
          rwa [hcall] at hgrown
        · have hgrown := grown_realloc (A := A) h hp hle hg
          rwa [hcall] at hgrown
      · have hbail := hheap.resolve_left hp
        have hmalloc : mempool_realloc A p n w' = w'.new_array A n := by
          unfold mempool_realloc
          rw [if_neg (by rw [hu]; exact hp), if_pos (hb.trans hbail)]
        rw [hmalloc] at hcall
        have hl : Leaks w := ⟨by simpa using hp, hbail⟩
        have hlen : w.pool.heap.live.length ≤ w'.pool.heap.live.length := by
          rcases hold with ⟨-, rfl⟩ | hg
          · exact Nat.le_refl _
          · exact Nat.le_of_lt (hg.leaked hl)
        obtain rfl : w₁ = (w'.new_array A n).2 := (congrArg Prod.snd hcall).symm
        exact ⟨hu, hb, fun hno => absurd hl hno, fun _ => Nat.lt_succ_of_le hlen⟩
    · rw [if_neg hroom, Option.some.injEq] at hcall
      obtain ⟨rfl, rfl⟩ := Prod.mk.inj hcall
      rw [if_pos rfl]
  · rw [if_neg hheap] at hcall
    obtain ⟨hp, hbail⟩ := not_or.mp hheap
    obtain ⟨hne, hgrown⟩ :=
      grown_pooled (A := A) h (by simpa using hp) (by simpa using hbail) hn hle hold
    obtain ⟨-, hcall⟩ := Option.ite_none_right_eq_some.mp hcall
    rw [Option.some.injEq] at hcall
    rw [hcall] at hne hgrown
    rw [if_neg hne]
    exact hgrown

/-! ## The bytes that are written -/

theorem holds_behind {mem : Nat → UInt8} {q : Nat} {l l' : List UInt8} (hq : p + l.length ≤ q)
    (h : lib.bytes.Holds mem q l') : lib.bytes.Holds (put mem p l) q l' := by
  have hsame : slice (put mem p l) q l'.length = slice mem q l'.length := by
    unfold slice
    apply List.map_congr_left
    intro i _
    unfold put
    rw [if_neg (by omega)]
  unfold lib.bytes.Holds
  rw [hsame]
  exact h

theorem slice_take {mem : Nat → UInt8} {m : Nat} (h : m ≤ n) :
    slice mem p m = (slice mem p n).take m := by
  obtain ⟨k, rfl⟩ := Nat.exists_eq_add_of_le h
  rw [slice_add, List.take_left' (slice_length m)]

/-- A shorter text over zeros. -/
theorem slice_over_zeros (mem : Nat → UInt8) {l : List UInt8} (h : l.length ≤ n) :
    slice (put (put mem p (List.replicate n 0)) p l) p n =
      l ++ List.replicate (n - l.length) 0 := by
  have hzeros : lib.bytes.Holds (put mem p (List.replicate n 0)) (p + l.length)
      (List.replicate (n - l.length) 0) := by
    have hall := holds_put mem p (List.replicate n 0)
    have hsplit : List.replicate n (0 : UInt8) =
        List.replicate l.length 0 ++ List.replicate (n - l.length) 0 := by
      rw [List.replicate_append_replicate]
      congr 1
      omega
    generalize put mem p (List.replicate n 0) = zeroed at hall ⊢
    rw [hsplit, holds_append, List.length_replicate] at hall
    exact hall.2
  have hboth : lib.bytes.Holds (put (put mem p (List.replicate n 0)) p l) p
      (l ++ List.replicate (n - l.length) 0) :=
    holds_append.mpr ⟨holds_put _ p l, holds_behind (Nat.le_refl _) hzeros⟩
  apply slice_of_holds hboth
  rw [List.length_append, List.length_replicate]
  omega

variable {t : printed}

/-- What `snprintf` says that it wrote. -/
def printed.count (t : printed) (size : Nat) : Nat :=
  if t.full.length ≤ INT_MAX then t.full.length else size

/-- A turn that gets a buffer fills it. -/
theorem turn_written (hn : 0 < n) (hcall : realloc_from A room p n w = some (p₁, w₁))
    (hne : p₁ ≠ 0) : ∃ w₂, turn A room t n p w = .written p₁ (t.count n) w₂ ∧
      w₂.pool = w₁.pool ∧ w₂.use_pool = w₁.use_pool ∧ slice w₂.mem p₁ n = t.bytes n := by
  have hlen : ∀ l : List UInt8, (l.take (n - 1) ++ [0]).length ≤ n := by
    intro l
    rw [List.length_append, List.length_take, List.length_singleton]
    omega
  simp only [turn, hcall, if_neg hne, printed.snprintf, printed.count, printed.bytes]
  by_cases hfull : t.full.length ≤ INT_MAX
  · simp only [if_pos hfull]
    refine ⟨_, rfl, rfl, rfl, ?_⟩
    exact slice_over_zeros w₁.mem (hlen t.full)
  · simp only [if_neg hfull]
    refine ⟨_, rfl, rfl, rfl, ?_⟩
    exact slice_over_zeros w₁.mem (hlen (t.cut n))

theorem bytes_take (h : t.full.length < n) (hint : t.full.length ≤ INT_MAX) :
    (t.bytes n).take t.full.length = t.full := by
  have htake : t.full.take (n - 1) = t.full := List.take_of_length_le (by omega)
  simp only [printed.bytes, if_pos hint, htake, List.append_assoc]
  exact List.take_left

/-! ## All turns -/

/-- The calls see no bytes. -/
def Alike (w w' : World) : Prop :=
  w'.pool = w.pool ∧ w'.use_pool = w.use_pool

theorem alike_realloc (h : Alike w w') (p n : Nat) :
    (mempool_realloc A p n w').1 = (mempool_realloc A p n w).1 ∧
      Alike (mempool_realloc A p n w).2 (mempool_realloc A p n w').2 := by
  obtain ⟨pool, mem, use_pool, handed⟩ := w
  obtain ⟨pool', mem', use_pool', handed'⟩ := w'
  obtain ⟨rfl, rfl⟩ : pool' = pool ∧ use_pool' = use_pool := h
  have hacquire : ∀ v : World, (v.acquire A n).1 = (v.pool.acquire A n).1 := fun _ => rfl
  unfold mempool_realloc
  simp only [hacquire]
  split_ifs
  · unfold World.realloc
    dsimp only
    cases pool'.heap.live.find? fun b => b.addr = p with
    | none => exact ⟨rfl, rfl, rfl⟩
    | some b => exact ⟨rfl, rfl, rfl⟩
  all_goals exact ⟨rfl, rfl, rfl⟩

theorem alike_call {w₂ : World} (h : Alike w w') (hcall : realloc_from A room p n w = some (p₁, w₂)) :
    ∃ w₃, realloc_from A room p n w' = some (p₁, w₃) ∧ Alike w₂ w₃ := by
  obtain ⟨hptr, hpool, huse⟩ := alike_realloc (A := A) h p n
  unfold realloc_from at hcall ⊢
  rw [h.1, h.2]
  have hgives : ∀ r, r = mempool_realloc A p n w → some r = some (p₁, w₂) →
      ∃ w₃, some (mempool_realloc A p n w') = some (p₁, w₃) ∧ Alike w₂ w₃ := by
    rintro r rfl heq
    rw [Option.some.injEq] at heq
    rw [heq] at hptr hpool huse
    exact ⟨(mempool_realloc A p n w').2, congrArg some (Prod.ext hptr rfl), hpool, huse⟩
  by_cases hheap : w.use_pool = false ∨ w.pool.bailing = true
  · rw [if_pos hheap] at hcall ⊢
    split at hcall
    next hroom =>
      rw [if_pos hroom]
      exact hgives _ rfl hcall
    next hroom =>
      rw [if_neg hroom]
      rw [Option.some.injEq, Prod.mk.injEq] at hcall
      obtain ⟨rfl, rfl⟩ := hcall
      exact ⟨w', rfl, h⟩
  · rw [if_neg hheap] at hcall ⊢
    obtain ⟨hserved, hcall⟩ := Option.ite_none_right_eq_some.mp hcall
    dsimp only
    rw [if_pos hserved]
    exact hgives _ rfl hcall

theorem served_succ {k : Nat} : served A room w (k + 1) = some (p₁, w₁) ↔
    ∃ q w₀, served A room w k = some (q, w₀) ∧
      realloc_from A room q (cap * (k + 1)) w₀ = some (p₁, w₁) ∧ p₁ ≠ 0 := by
  constructor
  · intro h
    obtain ⟨⟨q, w₀⟩, hk, hfilter⟩ := Option.bind_eq_some_iff.mp h
    obtain ⟨hcall, hne⟩ := Option.filter_eq_some_iff.mp hfilter
    exact ⟨q, w₀, hk, hcall, of_decide_eq_true hne⟩
  · rintro ⟨q, w₀, hk, hcall, hne⟩
    apply Option.bind_eq_some_iff.mpr
    exact ⟨(q, w₀), hk, Option.filter_eq_some_iff.mpr ⟨hcall, decide_eq_true hne⟩⟩

/-- Each turn that is served leaves a buffer of its size. -/
theorem served_held (h : Whole w.pool) {k : Nat} (hk : k ≤ max)
    (hs : served A room w k = some (p₁, w₁)) :
    Held w w₁ p₁ (cap * k) ∧ (0 < k → Grown w w₁ p₁ (cap * k)) := by
  induction k generalizing p₁ w₁ with
  | zero =>
    obtain ⟨rfl, rfl⟩ := Prod.mk.inj (Option.some.inj hs)
    exact ⟨Or.inl ⟨rfl, rfl⟩, fun hlt => absurd hlt (Nat.lt_irrefl 0)⟩
  | succ k ih =>
    obtain ⟨q, w₀, hprev, hcall, hne⟩ := served_succ.mp hs
    have hsize : cap * (k + 1) ≠ 0 := by simp [cap]
    have hgrown := grown_call h hsize (Nat.mul_le_mul_left cap hk) (ih (by omega) hprev).1 hcall
    rw [if_neg hne] at hgrown
    exact ⟨Or.inr hgrown, fun _ => hgrown⟩

/-- The loop comes to each turn that the text takes. -/
theorem format_unroll {k : Nat} (hk : k < max) (hlong : cap * k ≤ t.full.length)
    (hs : served A room w k = some (p₁, w₁)) :
    ∃ w₂, Alike w₁ w₂ ∧ (k = 0 → w₂ = w) ∧
      string_format A room t w = format_loop A room t (max - (k + 1)) (k + 1) p₁ w₂ := by
  induction k generalizing p₁ w₁ with
  | zero =>
    obtain ⟨rfl, rfl⟩ := Prod.mk.inj (Option.some.inj hs)
    exact ⟨w, ⟨rfl, rfl⟩, fun _ => rfl, rfl⟩
  | succ k ih =>
    obtain ⟨q, w₀, hprev, hcall, hne⟩ := served_succ.mp hs
    have hless : cap * k ≤ t.full.length :=
      (Nat.mul_le_mul_left cap (Nat.le_succ k)).trans hlong
    obtain ⟨w₂, halike, -, hloop⟩ := ih (by omega) hless hprev
    obtain ⟨w₃, hcall', halike'⟩ := alike_call halike hcall
    obtain ⟨w₄, hturn, hpool, huse, -⟩ := turn_written (t := t) (by simp [cap]) hcall' hne
    refine ⟨w₄, ⟨hpool.trans halike'.1, huse.trans halike'.2⟩, fun h => absurd h (by omega), ?_⟩
    obtain ⟨left, hleft⟩ : ∃ left, max - (k + 1) = left + 1 := ⟨max - (k + 2), by omega⟩
    have hcount : t.count (cap * (k + 1)) ≥ cap * (k + 1) := by
      unfold printed.count
      split
      · exact hlong
      · exact Nat.le_refl _
    have hrest : left = max - (k + 1 + 1) := by omega
    rw [hloop, hleft, format_loop, hturn, hrest]
    exact if_pos hcount

theorem served_fails {k : Nat} (h : served A room w k = none) :
    ∃ j < k, ∃ q w₀, served A room w j = some (q, w₀) ∧ served A room w (j + 1) = none := by
  induction k with
  | zero => cases h
  | succ k ih =>
    cases hk : served A room w k with
    | none =>
      obtain ⟨j, hj, hrest⟩ := ih hk
      exact ⟨j, Nat.lt_succ_of_lt hj, hrest⟩
    | some r => exact ⟨k, Nat.lt_succ_self k, r.1, r.2, hk, h⟩

/-- The turns that come before the last one are too short for the text. -/
theorem long_before {k : Nat} (hk : k < t.turns) : k < max ∧ cap * k ≤ t.full.length := by
  unfold printed.turns at hk
  split at hk
  next hshort =>
    have hmax : t.full.length / cap < max := by
      rw [Nat.div_lt_iff_lt_mul (by decide), Nat.mul_comm]
      exact hshort
    refine ⟨by omega, ?_⟩
    calc cap * k ≤ cap * (t.full.length / cap) := Nat.mul_le_mul_left cap (Nat.le_of_lt_succ hk)
      _ ≤ t.full.length := Nat.mul_div_le _ _
  next hlong =>
    exact ⟨hk, (Nat.mul_le_mul_left cap (Nat.le_of_lt hk)).trans (Nat.le_of_not_lt hlong)⟩

/-- In the last turn, the text fits or the limit is reached. -/
theorem last_turn : ∃ k, t.turns = k + 1 ∧ k < max ∧ cap * k ≤ t.full.length ∧
    (t.full.length < cap * max → t.full.length < cap * (k + 1)) ∧
    (cap * max ≤ t.full.length → k + 1 = max) := by
  obtain ⟨k, hk⟩ : ∃ k, t.turns = k + 1 := by
    unfold printed.turns
    split
    · exact ⟨_, rfl⟩
    · exact ⟨max - 1, rfl⟩
  obtain ⟨hmax, hlong⟩ := long_before (t := t) (k := k) (by omega)
  refine ⟨k, hk, hmax, hlong, fun hshort => ?_, fun hlong' => ?_⟩
  · unfold printed.turns at hk
    rw [if_pos hshort] at hk
    rw [← hk]
    exact Nat.lt_mul_div_succ _ (by decide)
  · unfold printed.turns at hk
    rw [if_neg (Nat.not_lt.mpr hlong')] at hk
    exact hk.symm

/-! ## When a turn gets no buffer -/

theorem first_served {k : Nat} {r : Nat × World} (hs : served A room w (k + 1) = some r) :
    (realloc_from A room 0 cap w).map Prod.fst ≠ some 0 := by
  induction k generalizing r with
  | zero =>
    obtain ⟨q, w₀, hprev, hcall, hne⟩ := served_succ.mp hs
    obtain ⟨rfl, rfl⟩ := Prod.mk.inj (Option.some.inj hprev)
    have hfirst : realloc_from A room 0 cap w = some r := hcall
    rw [hfirst]
    exact fun h => hne (Option.some.inj h)
  | succ k ih =>
    obtain ⟨q, w₀, hprev, -⟩ := served_succ.mp hs
    exact ih hprev

theorem Grown.alike (hg : Grown w w' p size) (h : Alike w' w₁) : Grown w w₁ p size := by
  obtain ⟨hpool, huse⟩ := h
  refine ⟨huse.trans hg.use_pool, ?_, ?_, ?_⟩
  · rw [hpool]
    exact hg.bailing
  · rw [hpool]
    exact hg.out
  · rw [hpool]
    exact hg.leaked

/-- Without a first buffer, the result is right. -/
theorem right_of_no_buffer (hcall : realloc_from A room 0 cap w = some (0, w)) :
    Right A room t w { ret := [], w } where
  whole := by
    rintro ⟨k, -, hk, hserved⟩
    cases k with
    | zero => exact absurd hk (Nat.not_lt_zero _)
    | succ k =>
      obtain ⟨r, hr⟩ := Option.isSome_iff_exists.mp hserved
      exact absurd (congrArg (Option.map Prod.fst) hcall) (first_served hr)
  part := List.nil_prefix
  inside := ⟨0, rfl, Nat.le_refl 0⟩
  restored := ⟨fun _ => rfl, rfl, rfl⟩

/-- Where a turn gets no buffer, the result is right in the first turn only. -/
theorem unserved_iff (h : Whole w.pool) (hfails : served A room w t.turns = none) :
    Formats A room t w ↔ (realloc_from A room 0 cap w).map Prod.fst = some 0 := by
  obtain ⟨j, hj, q, w₀, hprev, hnext⟩ := served_fails hfails
  obtain ⟨hmax, hlong⟩ := long_before hj
  obtain ⟨w₁, halike, hfirst, hloop⟩ := format_unroll hmax hlong hprev
  have hback : ∀ p₁ w₂, realloc_from A room q (cap * (j + 1)) w₁ = some (p₁, w₂) → p₁ = 0 := by
    intro p₁ w₂ hcall
    by_contra hne
    obtain ⟨w₃, hcall', -⟩ := alike_call ⟨halike.1.symm, halike.2.symm⟩ hcall
    rw [served_succ.mpr ⟨q, w₀, hprev, hcall', hne⟩] at hnext
    cases hnext
  unfold Formats
  rw [hloop, format_loop]
  cases hcall : realloc_from A room q (cap * (j + 1)) w₁ with
  | none =>
    simp only [turn, hcall]
    refine iff_of_false (by simp) ?_
    cases j with
    | zero =>
      obtain ⟨rfl, rfl⟩ := Prod.mk.inj (Option.some.inj hprev)
      rw [hfirst rfl] at hcall
      have hnone : realloc_from A room 0 cap w = none := hcall
      rw [hnone]
      exact fun h => nomatch h
    | succ j => exact first_served hprev
  | some r =>
    obtain ⟨p₁, w₂⟩ := r
    obtain rfl := hback p₁ w₂ hcall
    simp only [turn, hcall, if_true, Option.some.injEq, exists_eq_left']
    have hsize : cap * (j + 1) ≠ 0 := by simp [cap]
    have hle : cap * (j + 1) ≤ cap * max := Nat.mul_le_mul_left cap hmax
    cases j with
    | zero =>
      obtain ⟨rfl, rfl⟩ := Prod.mk.inj (Option.some.inj hprev)
      rw [hfirst rfl] at hcall
      have hold : Held w w 0 0 := Or.inl ⟨rfl, rfl⟩
      have hsame := grown_call h hsize hle hold hcall
      rw [if_pos rfl] at hsame
      subst hsame
      have hnull : realloc_from A room 0 cap w₂ = some (0, w₂) := hcall
      refine iff_of_true (right_of_no_buffer hnull) ?_
      rw [hnull]
      rfl
    | succ j =>
      refine iff_of_false (fun hright => ?_) (first_served hprev)
      have hg : Grown w w₁ q (cap * (j + 1)) :=
        ((served_held h (Nat.le_of_lt hmax) hprev).2 (Nat.succ_pos j)).alike halike
      have hsame := grown_call h hsize hle (Or.inr hg) hcall
      rw [if_pos rfl] at hsame
      subst hsame
      exact hg.not_restored hright.restored

/-! ## When each turn gets its buffer -/

theorem count_short (h : t.full.length < cap * max) (n : Nat) : t.count n = t.full.length := by
  have hint : t.full.length ≤ INT_MAX := by
    unfold cap max at h
    unfold INT_MAX
    omega
  exact if_pos hint

/-- What is copied from the last buffer is right, when the text is short. -/
theorem copied_iff {m k : Nat} {mem : Nat → UInt8} (hlow : cap * (k + 1) ≤ m) (hhigh : m ≤ cap * max)
    (hfits : t.full.length < cap * max → t.full.length < cap * (k + 1))
    (hlimit : cap * max ≤ t.full.length → k + 1 = max)
    (hbytes : slice mem p (cap * (k + 1)) = t.bytes (cap * (k + 1))) :
    ((t.full.length < cap * max → slice mem p (t.count (cap * (k + 1))) = t.full) ∧
      slice mem p (t.count (cap * (k + 1))) <+: t.full ∧ t.count (cap * (k + 1)) ≤ m) ↔
      Short t := by
  by_cases hshort : t.full.length < cap * max
  · have hcopied : slice mem p (t.count (cap * (k + 1))) = t.full := by
      have hint : t.full.length ≤ INT_MAX := by
        unfold cap max at hshort
        unfold INT_MAX
        omega
      rw [count_short hshort, slice_take (Nat.le_of_lt (hfits hshort)), hbytes,
        bytes_take (hfits hshort) hint]
    have hfit := hfits hshort
    refine iff_of_true ⟨fun _ => hcopied, ?_, ?_⟩ (Or.inl hshort)
    · rw [hcopied]
    · rw [count_short hshort]
      omega
  · have hlong := Nat.le_of_not_lt hshort
    rw [hlimit hlong] at hlow hbytes ⊢
    obtain rfl : m = cap * max := Nat.le_antisymm hhigh hlow
    have hall : t.count (cap * max) = cap * max →
        slice mem p (t.count (cap * max)) = t.bytes (cap * max) := by
      intro hcount
      rw [hcount]
      exact hbytes
    constructor
    · rintro ⟨-, hpart, hinside⟩
      right
      by_cases hint : t.full.length ≤ INT_MAX
      · have hcount : t.count (cap * max) = t.full.length := if_pos hint
        rw [hcount] at hinside
        have hlen : t.full.length = cap * max := Nat.le_antisymm hinside hlong
        rw [hall (hcount.trans hlen)] at hpart
        exact ⟨Or.inl hlen, hpart⟩
      · have hcount : t.count (cap * max) = cap * max := if_neg hint
        rw [hall hcount] at hpart
        exact ⟨Or.inr (Nat.lt_of_not_le hint), hpart⟩
    · rintro (hless | ⟨hlen, hpart⟩)
      · exact absurd hless hshort
      have hcount : t.count (cap * max) = cap * max := by
        rcases hlen with heq | hint
        · unfold printed.count
          rw [heq, ite_self]
        · exact if_neg (Nat.not_le.mpr hint)
      rw [hall hcount, hcount]
      exact ⟨fun hless => absurd hless hshort, hpart, Nat.le_refl _⟩

theorem served_iff (h : Whole w.pool) (hserved : (served A room w t.turns).isSome) :
    Formats A room t w ↔ w.pool.bailing = false ∧ Short t := by
  obtain ⟨k, hk, hmax, hlong, hfits, hlimit⟩ := last_turn (t := t)
  have hheld : Holdable A room w t.full.length ↔ t.full.length < cap * max := by
    constructor
    · rintro ⟨j, hj, hless, -⟩
      exact hless.trans_le (Nat.mul_le_mul_left cap hj)
    · intro hless
      rw [hk] at hserved
      exact ⟨k + 1, hmax, hfits hless, hserved⟩
  rw [hk] at hserved
  obtain ⟨⟨p₁, w₁⟩, hr⟩ := Option.isSome_iff_exists.mp hserved
  obtain ⟨q, w₀, hprev, hcall, hne⟩ := served_succ.mp hr
  obtain ⟨w₂, halike, -, hloop⟩ := format_unroll hmax hlong hprev
  obtain ⟨w₃, hcall', halike'⟩ := alike_call halike hcall
  obtain ⟨w₄, hturn, hpool, huse, hbytes⟩ := turn_written (t := t) (by simp [cap]) hcall' hne
  have hend : string_format A room t w =
      some (copy_out p₁ (t.count (cap * (k + 1))) w₄) := by
    rw [hloop, format_loop, hturn]
    cases hleft : max - (k + 1) with
    | zero => rfl
    | succ left =>
      have hshort : t.full.length < cap * max := by
        by_contra hno
        have hlast := hlimit (Nat.le_of_not_lt hno)
        omega
      have hstop : ¬ t.count (cap * (k + 1)) ≥ cap * (k + 1) := by
        rw [count_short hshort]
        exact Nat.not_le.mpr (hfits hshort)
      exact if_neg hstop
  have hg : Grown w w₄ p₁ (cap * (k + 1)) :=
    ((served_held h hmax hr).2 (Nat.succ_pos k)).alike
      ⟨hpool.trans halike'.1, huse.trans halike'.2⟩
  have hfreed := hg.freed h
  have hbehind : w.pool.bailing = false → ∃ m, extent w₄.pool p₁ = some m ∧
      cap * (k + 1) ≤ m ∧ m ≤ cap * max := by
    intro hb
    have hl : ¬ Leaks w := not_leaks_of_running hb
    obtain ⟨m, hout, hlow, hhigh, -⟩ := hg.out hl
    exact ⟨m, (hout.find h).2.1, hlow, hhigh⟩
  unfold Formats
  simp only [hend, Option.some.injEq, exists_eq_left']
  constructor
  · intro hright
    have hb : w.pool.bailing = false := hfreed.mp hright.restored
    obtain ⟨m, hextent, hlow, hhigh⟩ := hbehind hb
    obtain ⟨m', hextent', hinside⟩ := hright.inside
    obtain rfl : m = m' := Option.some.inj (hextent.symm.trans hextent')
    refine ⟨hb, (copied_iff hlow hhigh hfits hlimit hbytes).mp ⟨?_, hright.part, hinside⟩⟩
    exact fun hless => hright.whole (hheld.mpr hless)
  · rintro ⟨hb, hshort⟩
    obtain ⟨m, hextent, hlow, hhigh⟩ := hbehind hb
    obtain ⟨hwhole, hpart, hinside⟩ := (copied_iff hlow hhigh hfits hlimit hbytes).mpr hshort
    exact ⟨fun hless => hwhole (hheld.mp hless), hpart, ⟨m, hextent, hinside⟩, hfreed.mpr hb⟩

/-- A heap that always has room serves each turn. -/
theorem served_of_room (h : Whole w.pool) (hroom : ∀ heap n, room heap n = true) {k : Nat}
    (hk : k ≤ max) : (served A room w k).isSome := by
  induction k with
  | zero => rfl
  | succ k ih =>
    obtain ⟨⟨q, w₀⟩, hprev⟩ := Option.isSome_iff_exists.mp (ih (by omega))
    have hsize : cap * (k + 1) ≠ 0 := by simp [cap]
    have hne := mempool_realloc_ne (A := A) h hsize (Nat.mul_le_mul_left cap hk)
      (served_held h (by omega) hprev).1
    have hcall : realloc_from A room q (cap * (k + 1)) w₀ =
        some (mempool_realloc A q (cap * (k + 1)) w₀) := by
      simp [realloc_from, hroom]
    exact Option.isSome_iff_exists.mpr ⟨_, served_succ.mpr ⟨q, w₀, hprev, hcall, hne⟩⟩

/-- With enough memory, a text comes out right when it is short. -/
theorem formats_of_room (h : Whole w.pool) (hroom : ∀ heap n, room heap n = true) :
    Formats A room t w ↔ w.pool.bailing = false ∧ Short t := by
  obtain ⟨k, hk, hmax, -⟩ := last_turn (t := t)
  apply served_iff h
  rw [hk]
  exact served_of_room h hroom hmax

theorem formats_fits (h : Whole w.pool) : Formats A room t w ↔ Fits A room t w := by
  cases hserved : served A room w t.turns with
  | none =>
    rw [unserved_iff h hserved]
    unfold Fits
    simp [hserved]
  | some r =>
    have hsome : (served A room w t.turns).isSome := by rw [hserved]; rfl
    rw [served_iff h hsome]
    obtain ⟨k, hk, -⟩ := last_turn (t := t)
    rw [hk] at hserved
    have hfirst := first_served hserved
    unfold Fits
    simp [hfirst, hsome]

end

/-! ## Every state of the pool -/

theorem whole_of_kept {st : Program} (h : st.Kept) : Whole st.w.pool := by
  rcases h.2 with ⟨T, hr⟩ | he
  · exact whole_of_sound hr.sound
  · exact whole_of_sound he.sound

/-- In each run of the allocation functions, a text that is formatted comes out right just when it
fits, with the pool and without it. -/
theorem formats_iff (A : Allocator) (room : Heap → Nat → Bool) (t : printed)
    (canary_sz n₁ n₂ n₃ n₄ n₅ : Nat) (mem : Nat → UInt8) (ops : List alloc_op) :
    Always (Program.step A) (fun st => ∀ use_pool,
        Formats A room t { st.w with use_pool } ↔ Fits A room t { st.w with use_pool })
      (.start (memPool.init A canary_sz n₁ n₂ n₃ n₄ n₅) mem) ops := by
  apply (kept_always A canary_sz n₁ n₂ n₃ n₄ n₅ mem ops).mono
  intro st hkept use_pool
  have hwhole : Whole ({ st.w with use_pool } : World).pool := whole_of_kept hkept
  exact formats_fits hwhole

/-- A certificate of 20000 bytes is printed by a program that has just been started. -/
theorem a_long_text_is_not_formatted :
    ¬ ∀ (A : Allocator) (room : Heap → Nat → Bool) (t : printed) (canary_sz n₁ n₂ n₃ n₄ n₅ : Nat)
      (mem : Nat → UInt8) (ops : List alloc_op), Always (Program.step A)
        (fun st => Formats A room t st.w)
        (.start (memPool.init A canary_sz n₁ n₂ n₃ n₄ n₅) mem) ops := by
  intro hall
  let t : printed := { full := List.replicate 20000 0x41, cut := fun _ => [] }
  have hformats : Formats bump (fun _ _ => true) t (.start default_pool fun _ => 0 : Program).w :=
    hall bump (fun _ _ => true) t 0 10000 5000 5000 1000 800 (fun _ => 0) []
  have hwhole : Whole (.start default_pool fun _ => 0 : Program).w.pool :=
    whole_of_kept (kept_start bump 0 10000 5000 5000 1000 800 fun _ => 0)
  have hlen : t.full.length = 20000 := List.length_replicate
  rcases ((formats_of_room hwhole fun _ _ => rfl).mp hformats).2 with hless | ⟨hlong, -⟩
  · rw [hlen] at hless
    exact absurd hless (by decide)
  · rw [hlen] at hlong
    exact absurd hlong (by decide)

end socle.stringformat
