-- Who can have which chunk of the pool, in each run of `acquire` and `release`
-- (common/mempool/mempool.cpp). A chunk is free or has one owner, none gets
-- lost, and each goes back to where it came from.
import Socle.Lib.Run
import Socle.PoolLedger

namespace socle.mempool

open lib.ledger

/-! ## Chunks that lie apart -/

theorem Bucket.chunks_apart {sz : Nat} {b : Bucket sz} {p q : Nat} (hp : b.Carved p)
    (hq : b.Carved q) (hne : p ≠ q) : p + sz ≤ q ∨ q + sz ≤ p := by
  obtain ⟨k, -, rfl⟩ := hp
  obtain ⟨k', -, rfl⟩ := hq
  have hstep : ∀ m m', m < m' → b.chunk_at m + sz ≤ b.chunk_at m' := by
    intro m m' hlt
    have hle : (m + 1) * (sz + b.canary_sz) ≤ m' * (sz + b.canary_sz) :=
      Nat.mul_le_mul_right _ hlt
    have hsucc : (m + 1) * (sz + b.canary_sz) = m * (sz + b.canary_sz) + (sz + b.canary_sz) := by
      ring
    simp only [Bucket.chunk_at]
    omega
  rcases Nat.lt_trichotomy k k' with hlt | heq | hlt
  · exact Or.inl (hstep k k' hlt)
  · exact absurd (by rw [heq]) hne
  · exact Or.inr (hstep k' k hlt)

/-! ## Nothing gets lost -/

variable {ι : Type*} {w : memPool} {T : ι → Option mem_chunk}

/-- Each chunk of each bucket is free or out. -/
structure Conserved (w : memPool) (T : ι → Option mem_chunk) : Prop extends Sound w T where
  nothing_lost : ∀ id p, (w.bucket id).Carved p →
    (∃ f ∈ (w.bucket id).bucket, f.ptr = p) ∨ ∃ i c, T i = some c ∧ c.ptr = p

theorem acquire_same_places (A : Allocator) (w : memPool) (n : Nat) :
    SamePlaces w (w.acquire A n).2 := by
  by_cases hn : n = 0
  · subst hn
    exact fun _ => ⟨rfl, rfl, rfl, rfl⟩
  · rcases acquire_cases A w hn with ⟨id, c, rest, -, -, heq⟩ | ⟨-, heq⟩
    · rw [heq]
      exact same_places_put w id rest
    · rw [heq]
      exact fun _ => ⟨rfl, rfl, rfl, rfl⟩

/-- Where `release` puts a chunk that is out: on the stack of its bucket, or back to the heap. -/
theorem Sound.release_cases (h : Sound w T) {i : ι} {c : mem_chunk} (hc : T i = some c)
    (hbail : w.bailing = false) :
    (∃ id, (w.bucket id).Carved c.ptr ∧ w.release c =
      w.put id { w.bucket id with bucket := { c with in_pool := true } :: (w.bucket id).bucket }) ∨
    (⟨c.ptr, c.capacity⟩ ∈ w.heap.live ∧ (∀ id, (w.bucket id).is_mine c.ptr = false) ∧
      w.release c = w.free_heap c) := by
  obtain ⟨hne, -, hback⟩ := h.backed i c hc
  unfold memPool.release
  simp only [hne, hbail, Bool.false_eq_true, if_false]
  cases hback with
  | carved id hp hn =>
    have hmine := carved_is_mine (h.shaped id) hp
    have htype : c.pool_type ≠ .HEAP := by
      intro ht
      have hno := h.heap_type i c hc ht id
      rw [hmine] at hno
      cases hno
    left
    refine ⟨id, hp, ?_⟩
    cases hfind : w.find_by_address c.ptr with
    | none =>
      rw [find_by_address_none.mp hfind id] at hmine
      cases hmine
    | some id' =>
      have hid := h.mine_once id' id c.ptr (find_by_address_some hfind) hmine
      subst hid
      rw [if_neg htype]
      simp [Bucket.release, hmine]
  | heap hp hm =>
    right
    refine ⟨hp, hm, ?_⟩
    simp [find_by_address_none.mpr hm]

theorem Sound.release_same_places (h : Sound w T) {i : ι} {c : mem_chunk} (hc : T i = some c)
    (hbail : w.bailing = false) : SamePlaces w (w.release c) := by
  rcases h.release_cases hc hbail with ⟨id, -, heq⟩ | ⟨-, -, heq⟩
  · rw [heq]
    exact same_places_put w id _
  · rw [heq]
    exact fun _ => ⟨rfl, rfl, rfl, rfl⟩

section
variable [DecidableEq ι]

theorem Conserved.acquire (h : Conserved w T) (A : Allocator) {i : ι} (hi : T i = none) {n : Nat}
    (hn : n ≠ 0) :
    Conserved (w.acquire A n).2 (Function.update T i (some (w.acquire A n).1)) where
  toSound := (h.toSound.acquire A hn).1
  nothing_lost := by
    intro id p hp
    rw [(acquire_same_places A w n).carved] at hp
    have hout : ∀ j c, T j = some c → c.ptr = p →
        ∃ j c, Function.update T i (some (w.acquire A n).1) j = some c ∧ c.ptr = p := by
      intro j c hj hptr
      have hji : j ≠ i := by
        rintro rfl
        rw [hi] at hj
        cases hj
      exact ⟨j, c, by rwa [Function.update_of_ne hji], hptr⟩
    rcases h.nothing_lost id p hp with ⟨f, hf, hptr⟩ | ⟨j, c, hj, hptr⟩
    · rcases acquire_cases A w hn with ⟨id', c, rest, -, hst, heq⟩ | ⟨-, heq⟩
      · rw [heq, put_bucket]
        by_cases hid : id = id'
        · subst hid
          rw [if_pos rfl]
          rw [hst] at hf
          -- the chunk was on top and is now out, or it is still on the stack
          rcases List.mem_cons.mp hf with rfl | hf
          · exact Or.inr ⟨i, _, Function.update_self .., hptr⟩
          · exact Or.inl ⟨f, hf, hptr⟩
        · rw [if_neg hid]
          exact Or.inl ⟨f, hf, hptr⟩
      · rw [heq]
        exact Or.inl ⟨f, hf, hptr⟩
    · exact Or.inr (hout j c hj hptr)

theorem Conserved.release (h : Conserved w T) {i : ι} {c : mem_chunk} (hc : T i = some c)
    (hbail : w.bailing = false) : Conserved (w.release c) (Function.update T i none) where
  toSound := h.toSound.release hc
  nothing_lost := by
    intro id p hp
    rw [(h.toSound.release_same_places hc hbail).carved] at hp
    have hout : ∀ j d, T j = some d → d.ptr = p → j ≠ i →
        ∃ j d, Function.update T i none j = some d ∧ d.ptr = p :=
      fun j d hj hptr hji => ⟨j, d, by rwa [Function.update_of_ne hji], hptr⟩
    rcases h.toSound.release_cases hc hbail with ⟨id', hcv, heq⟩ | ⟨-, hm, heq⟩
    · rw [heq, put_bucket]
      rcases h.nothing_lost id p hp with ⟨f, hf, hptr⟩ | ⟨j, d, hj, hptr⟩
      · left
        split
        next hid =>
          subst hid
          exact ⟨f, List.mem_cons_of_mem _ hf, hptr⟩
        next => exact ⟨f, hf, hptr⟩
      · by_cases hji : j = i
        · subst hji
          rw [hc, Option.some.injEq] at hj
          subst hj
          have hid : id = id' := h.mine_once id id' p (carved_is_mine (h.shaped id) hp)
            (hptr ▸ carved_is_mine (h.shaped id') hcv)
          rw [if_pos hid]
          exact Or.inl ⟨_, List.mem_cons_self, hptr⟩
        · exact Or.inr (hout j d hj hptr hji)
    · rw [heq]
      rcases h.nothing_lost id p hp with hf | ⟨j, d, hj, hptr⟩
      · exact Or.inl hf
      · refine Or.inr (hout j d hj hptr ?_)
        rintro rfl
        rw [hc, Option.some.injEq] at hj
        subst hj
        have hmine := carved_is_mine (h.shaped id) hp
        rw [← hptr, hm id] at hmine
        cases hmine

end

/-! ## A new pool -/

/-- Each chunk of the bucket is on its stack. -/
def Bucket.Full {sz : Nat} (b : Bucket sz) : Prop :=
  ∀ p, b.Carved p → ∃ f ∈ b.bucket, f.ptr = p

theorem carve_has {sz canary_sz start j k : Nat} (hj : j < k) :
    ∃ c ∈ carve sz canary_sz start k, c.ptr = start + j * (sz + canary_sz) := by
  induction k with
  | zero => omega
  | succ k ih =>
    by_cases hlast : j = k
    · exact ⟨_, List.mem_cons_self, by rw [hlast]⟩
    · obtain ⟨c, hc, hp⟩ := ih (by omega)
      exact ⟨c, List.mem_cons_of_mem _ hc, hp⟩

theorem init_memory_full (A : Allocator) (canary_sz cnt : Nat) (id : bucket_id) (h : Heap) :
    (Bucket.init_memory A canary_sz cnt id.sz h).1.Full := by
  rw [init_memory_eq A canary_sz cnt id.sz id.sz_pos]
  rintro p ⟨k, hk, rfl⟩
  exact carve_has hk

theorem allocate_full (A : Allocator) (canary_sz : Nat) (cnts : List (bucket_id × Nat))
    {w : memPool} (h : ∀ id, (w.bucket id).Full) (id : bucket_id) :
    ((memPool.allocate A canary_sz cnts w).bucket id).Full := by
  induction cnts generalizing w with
  | nil => exact h id
  | cons head rest ih =>
    apply ih
    intro id'
    by_cases he : id' = head.1
    · subst he
      simp only [memPool.put, Function.update_self]
      exact init_memory_full A canary_sz head.2 head.1 w.heap
    · simp only [memPool.put, Function.update_of_ne he]
      exact h id'

theorem Conserved.init (A : Allocator) (canary_sz n₁ n₂ n₃ n₄ n₅ : Nat) (hT : ∀ i, T i = none) :
    Conserved (memPool.init A canary_sz n₁ n₂ n₃ n₄ n₅) T where
  toSound := Sound.init A canary_sz n₁ n₂ n₃ n₄ n₅ hT
  nothing_lost := by
    intro id p hp
    refine Or.inl (allocate_full A canary_sz _ (fun id => ?_) id p hp)
    rintro q ⟨k, hk, -⟩
    exact absurd hk (Nat.not_lt_zero k)

/-! ## Runs -/

/-- The pool, the chunk that each owner holds, and the bucket that gave it. No function of the code
reads `origin`: it keeps which bucket got smaller when the owner called `acquire`. -/
structure Owners where
  pool : memPool
  held : Nat → Option mem_chunk
  origin : Nat → Option bucket_id

/-- A call of owner `v`. -/
inductive call
  | acquire (v sz : Nat)
  | release (v : Nat)

/-- The bucket that has fewer free chunks than before. -/
def smaller (w w' : memPool) : Option bucket_id :=
  buckets.find? fun id => (w'.bucket id).bucket.length < (w.bucket id).bucket.length

/-- Owner `v` got an answer. -/
def Owners.took (st : Owners) (v : Nat) (r : mem_chunk × memPool) : Owners where
  pool := r.2
  held := Function.update st.held v (some r.1)
  origin := Function.update st.origin v (smaller st.pool r.2)

/-- Owner `v` gave its chunk back. -/
def Owners.gave (st : Owners) (v : Nat) (c : mem_chunk) : Owners :=
  { st with pool := st.pool.release c, held := Function.update st.held v none }

/-- What a call does. It is refused to an owner that has a chunk already, or has none to return. -/
def Owners.step (A : Allocator) (st : Owners) : call → Option Owners
  | .acquire v sz =>
    if st.held v = none then some (st.took v (st.pool.acquire A sz)) else none
  | .release v =>
    match st.held v with
    | some c => some (st.gave v c)
    | none => none

/-- A pool of which nobody holds a chunk. -/
def Owners.start (pool : memPool) : Owners :=
  { pool, held := fun _ => none, origin := fun _ => none }

/-- The chunks that are out. The answer to a request for nothing is no chunk. -/
def Owners.out (st : Owners) (v : Nat) : Option mem_chunk :=
  (st.held v).filter fun c => c.ptr ≠ 0

/-- The addresses of the free chunks of a bucket. -/
def memPool.free (w : memPool) (id : bucket_id) : List Nat :=
  (w.bucket id).bucket.map mem_chunk.ptr

/-! ## The laws -/

/-- The chunk of owner `v` goes back to where it came from, and nothing else changes. -/
def GoesBack (st : Owners) (v : Nat) (c : mem_chunk) : Prop :=
  match st.origin v with
  | some id => st.pool.release c = st.pool.put id
      { st.pool.bucket id with bucket := { c with in_pool := true } :: (st.pool.bucket id).bucket }
  | none => ⟨c.ptr, c.capacity⟩ ∈ st.pool.heap.live ∧ st.pool.release c =
      { st.pool with heap :=
        { st.pool.heap with live := st.pool.heap.live.filter fun b => b.addr ≠ c.ptr } }

/-- The chunks that the buckets of `w` were made with have one owner each or are free, they lie
apart in the memory of their bucket, and each one that is out goes back to where it came from. -/
structure Exclusive (w : memPool) (st : Owners) : Prop where
  one_owner : ∀ v u c d, st.out v = some c → st.out u = some d → c.ptr = d.ptr → v = u
  not_free : ∀ v c id, st.out v = some c → c.ptr ∉ st.pool.free id
  free_once : ∀ id, (st.pool.free id).Nodup
  conserved : ∀ id p, p ∈ w.free id ↔
    p ∈ st.pool.free id ∨ ∃ v c, st.out v = some c ∧ st.origin v = some id ∧ c.ptr = p
  inside : ∀ id, ∀ p ∈ w.free id,
    (st.pool.bucket id).bigptr ≤ p ∧ p + id.sz ≤ (st.pool.bucket id).endptr
  apart : ∀ id, (w.free id).Pairwise fun p q => p + id.sz ≤ q ∨ q + id.sz ≤ p
  goes_back : ∀ v c, st.out v = some c → GoesBack st v c
  no_bad_free : st.pool.heap.bad = []

/-- What each step keeps: the pool agrees with the owners, its buckets are where they were made,
and `origin` tells the bucket of each chunk. -/
structure Tracked (w : memPool) (st : Owners) : Prop where
  ledger : Conserved st.pool st.out
  places : SamePlaces w st.pool
  bailing : st.pool.bailing = false
  no_bad_free : st.pool.heap.bad = []
  of_bucket : ∀ v c id, st.out v = some c → st.origin v = some id →
    (st.pool.bucket id).Carved c.ptr
  of_heap : ∀ v c, st.out v = some c → st.origin v = none →
    ∀ id, (st.pool.bucket id).is_mine c.ptr = false

/-! ## One call -/

/-- A chunk from the stack of a bucket makes just this bucket smaller. -/
theorem smaller_put {w : memPool} {id : bucket_id} {c : mem_chunk} {rest : List mem_chunk}
    (hb : (w.bucket id).bucket = c :: rest) :
    smaller w (w.put id { w.bucket id with bucket := rest }) = some id := by
  have honly : ∀ id', ((w.put id { w.bucket id with bucket := rest }).bucket id').bucket.length <
      (w.bucket id').bucket.length ↔ id' = id := by
    intro id'
    rw [put_bucket]
    by_cases hid : id' = id
    · subst hid
      simp [hb]
    · simp [hid]
  unfold smaller
  simp only [honly]
  cases id <;> rfl

theorem from_heap_bucket (A : Allocator) (w : memPool) (n : Nat) (id : bucket_id) :
    ((w.from_heap A n).2.bucket id).bucket = (w.bucket id).bucket := rfl

theorem smaller_same {w w' : memPool} (h : ∀ id, (w'.bucket id).bucket = (w.bucket id).bucket) :
    smaller w w' = none := by
  unfold smaller
  rw [List.find?_eq_none]
  intro id _
  simp [h id]

theorem Owners.out_eq_some {st : Owners} {v : Nat} {c : mem_chunk} :
    st.out v = some c ↔ st.held v = some c ∧ c.ptr ≠ 0 := by
  simp [Owners.out, Option.filter_eq_some_iff]

/-- The owner `v` changes, the others stay. -/
theorem out_update (st st' : Owners) (v : Nat) (o : Option mem_chunk)
    (h : st'.held = Function.update st.held v o) :
    st'.out = Function.update st.out v (o.filter fun c => c.ptr ≠ 0) := by
  funext u
  by_cases hu : u = v
  · subst hu
    simp [Owners.out, h]
  · simp [Owners.out, h, hu]

/-- A new chunk of owner `v` comes from the bucket that is smaller now, or from the heap. -/
theorem Tracked.acquire {w : memPool} {st : Owners} (h : Tracked w st) (A : Allocator) {v : Nat}
    (hv : st.held v = none) {sz : Nat} (hsz : sz ≠ 0) :
    Tracked w (st.took v (st.pool.acquire A sz)) := by
  have hnone : st.out v = none := by
    simp [Owners.out, hv]
  have hnew := h.ledger.acquire A hnone hsz
  have hne := (hnew.backed v _ (Function.update_self ..)).1
  have hout := out_update st (st.took v (st.pool.acquire A sz)) v _ rfl
  have hreal : ((some (st.pool.acquire A sz).1).filter fun c => c.ptr ≠ 0) =
      some (st.pool.acquire A sz).1 := by
    simp [Option.filter, hne]
  rw [hreal] at hout
  have hplaces : SamePlaces st.pool (st.took v (st.pool.acquire A sz)).pool :=
    acquire_same_places A st.pool sz
  exact {
    ledger := by
      rw [hout]
      exact hnew
    places := h.places.trans hplaces
    bailing := by
      rcases acquire_cases A st.pool hsz with ⟨id, c, rest, -, -, heq⟩ | ⟨-, heq⟩
      · simp only [Owners.took, heq]
        exact h.bailing
      · simp only [Owners.took, heq]
        exact h.bailing
    no_bad_free := by
      rcases acquire_cases A st.pool hsz with ⟨id, c, rest, -, -, heq⟩ | ⟨-, heq⟩
      · simp only [Owners.took, heq]
        exact h.no_bad_free
      · simp only [Owners.took, heq]
        exact h.no_bad_free
    of_bucket := by
      rw [hout]
      intro u c id hc ho
      rw [hplaces.carved]
      rcases update_eq_some.mp hc with ⟨rfl, hgot⟩ | ⟨hu, hc⟩
      · cases hgot
        simp only [Owners.took, Function.update_self] at ho
        rcases acquire_cases A st.pool hsz with ⟨id', c, rest, -, hst, heq⟩ | ⟨-, heq⟩
        · simp only [heq] at ho ⊢
          rw [smaller_put hst, Option.some.injEq] at ho
          subst ho
          exact (h.ledger.free_carved id' c (by rw [hst]; exact List.mem_cons_self)).1
        · rw [heq, smaller_same (fun _ => from_heap_bucket ..)] at ho
          cases ho
      · simp only [Owners.took, Function.update_of_ne hu] at ho
        exact h.of_bucket u c id hc ho
    of_heap := by
      rw [hout]
      intro u c hc ho id
      rw [hplaces.is_mine]
      rcases update_eq_some.mp hc with ⟨rfl, hgot⟩ | ⟨hu, hc⟩
      · cases hgot
        simp only [Owners.took, Function.update_self] at ho
        rcases acquire_cases A st.pool hsz with ⟨id', c, rest, -, hst, heq⟩ | ⟨-, heq⟩
        · simp only [heq] at ho
          rw [smaller_put hst] at ho
          cases ho
        · have hheap := hnew.heap_type u _ (Function.update_self ..) (by rw [heq]; rfl) id
          rwa [(acquire_same_places A st.pool sz).is_mine] at hheap
      · simp only [Owners.took, Function.update_of_ne hu] at ho
        exact h.of_heap u c hc ho id }

/-- A request for nothing changes no more than the name of the answer. -/
theorem Tracked.acquire_nothing {w : memPool} {st : Owners} (h : Tracked w st) (A : Allocator)
    {v : Nat} (hv : st.held v = none) :
    Tracked w (st.took v (st.pool.acquire A 0)) := by
  have hnone : st.out v = none := by
    simp [Owners.out, hv]
  have hout := out_update st (st.took v (st.pool.acquire A 0)) v _ rfl
  have hupdate : Function.update st.out v none = st.out := by
    rw [← hnone, Function.update_eq_self]
  have hempty : ((some (st.pool.acquire A 0).1).filter fun c => c.ptr ≠ 0) = none := rfl
  rw [hempty, hupdate] at hout
  have hother : ∀ u c, st.out u = some c →
      Function.update st.origin v (smaller st.pool (st.pool.acquire A 0).2) u = st.origin u := by
    intro u c hc
    have hu : u ≠ v := by
      rintro rfl
      rw [hnone] at hc
      cases hc
    rw [Function.update_of_ne hu]
  refine ⟨?_, h.places, h.bailing, h.no_bad_free, ?_, ?_⟩
  · rw [hout]
    exact h.ledger
  · rw [hout]
    intro u c id hc ho
    exact h.of_bucket u c id hc ((hother u c hc).symm.trans ho)
  · rw [hout]
    intro u c hc ho
    exact h.of_heap u c hc ((hother u c hc).symm.trans ho)

/-- The heap takes a block back that is live, and never another address. -/
theorem free_heap_live {w : memPool} {c : mem_chunk} (hne : c.ptr ≠ 0)
    (hlive : ⟨c.ptr, c.capacity⟩ ∈ w.heap.live) :
    w.free_heap c =
      { w with heap := { w.heap with live := w.heap.live.filter fun b => b.addr ≠ c.ptr } } := by
  have hany : w.heap.live.any (fun b => b.addr = c.ptr) = true := by
    rw [List.any_eq_true]
    exact ⟨_, hlive, by simp⟩
  simp [memPool.free_heap, Heap.dealloc, hne, hany]

theorem Tracked.release {w : memPool} {st : Owners} (h : Tracked w st) {v : Nat} {c : mem_chunk}
    (hv : st.held v = some c) :
    Tracked w (st.gave v c) := by
  have hout := out_update st (st.gave v c) v none rfl
  rw [Option.filter_none] at hout
  by_cases hne : c.ptr = 0
  · have hsame : (st.gave v c).pool = st.pool := by
      simp [Owners.gave, memPool.release, hne]
    have hnone : st.out v = none := by
      simp [Owners.out, hv, Option.filter, hne]
    have hupdate : Function.update st.out v none = st.out := by
      rw [← hnone, Function.update_eq_self]
    rw [hupdate] at hout
    exact {
      ledger := by
        rw [hout, hsame]
        exact h.ledger
      places := by
        rw [hsame]
        exact h.places
      bailing := by
        rw [hsame]
        exact h.bailing
      no_bad_free := by
        rw [hsame]
        exact h.no_bad_free
      of_bucket := by
        rw [hout, hsame]
        exact h.of_bucket
      of_heap := by
        rw [hout, hsame]
        exact h.of_heap }
  · have hc : st.out v = some c := Owners.out_eq_some.mpr ⟨hv, hne⟩
    have hplaces : SamePlaces st.pool (st.gave v c).pool :=
      h.ledger.release_same_places hc h.bailing
    have hother : ∀ u d, Function.update st.out v none u = some d → st.out u = some d :=
      fun u d hd => (update_none_eq_some.mp hd).2
    exact {
      ledger := by
        rw [hout]
        exact h.ledger.release hc h.bailing
      places := h.places.trans hplaces
      bailing := by
        rcases h.ledger.release_cases hc h.bailing with ⟨id, -, heq⟩ | ⟨-, -, heq⟩
        · simp only [Owners.gave, heq]
          exact h.bailing
        · simp only [Owners.gave, heq]
          exact h.bailing
      no_bad_free := by
        rcases h.ledger.release_cases hc h.bailing with ⟨id, -, heq⟩ | ⟨hlive, -, heq⟩
        · simp only [Owners.gave, heq]
          exact h.no_bad_free
        · simp only [Owners.gave, heq]
          rw [free_heap_live hne hlive]
          exact h.no_bad_free
      of_bucket := by
        rw [hout]
        intro u d id hd ho
        rw [hplaces.carved]
        exact h.of_bucket u d id (hother u d hd) ho
      of_heap := by
        rw [hout]
        intro u d hd ho id
        rw [hplaces.is_mine]
        exact h.of_heap u d (hother u d hd) ho id }

theorem tracked_step (A : Allocator) {w : memPool} {st st' : Owners} {e : call}
    (h : Tracked w st) (hs : st.step A e = some st') : Tracked w st' := by
  cases e with
  | acquire v sz =>
    simp only [Owners.step] at hs
    split at hs
    next hv =>
      rw [Option.some.injEq] at hs
      subst hs
      by_cases hsz : sz = 0
      · subst hsz
        exact h.acquire_nothing A hv
      · exact h.acquire A hv hsz
    next => cases hs
  | release v =>
    simp only [Owners.step] at hs
    split at hs
    next c hv =>
      rw [Option.some.injEq] at hs
      subst hs
      exact h.release hv
    next => cases hs

/-! ## The laws hold -/

/-- The buckets of `w` are all free. -/
theorem free_iff_carved {w : memPool} {T : ι → Option mem_chunk} (h : Conserved w T)
    (hT : ∀ i, T i = none) (id : bucket_id) (p : Nat) : p ∈ w.free id ↔ (w.bucket id).Carved p := by
  constructor
  · intro hp
    obtain ⟨f, hf, rfl⟩ := List.mem_map.mp hp
    exact (h.free_carved id f hf).1
  · intro hp
    rcases h.nothing_lost id p hp with ⟨f, hf, rfl⟩ | ⟨i, c, hc, -⟩
    · exact List.mem_map_of_mem hf
    · rw [hT i] at hc
      cases hc

theorem tracked_exclusive {w : memPool} {T : ι → Option mem_chunk} (hw : Conserved w T)
    (hT : ∀ i, T i = none) {st : Owners} (h : Tracked w st) : Exclusive w st where
  one_owner := fun v u c d hv hu hptr => h.ledger.held_once v u c d hv hu hptr
  not_free := by
    intro v c id hv hfree
    obtain ⟨f, hf, hptr⟩ := List.mem_map.mp hfree
    exact h.ledger.held_not_free v c id hv f hf hptr
  free_once := h.ledger.free_once
  conserved := by
    intro id p
    rw [free_iff_carved hw hT, ← h.places.carved]
    constructor
    · intro hp
      rcases h.ledger.nothing_lost id p hp with ⟨f, hf, rfl⟩ | ⟨v, c, hv, rfl⟩
      · exact Or.inl (List.mem_map_of_mem hf)
      · refine Or.inr ⟨v, c, hv, ?_, rfl⟩
        have hmine := carved_is_mine (h.ledger.shaped id) hp
        cases ho : st.origin v with
        | none =>
          rw [h.of_heap v c hv ho id] at hmine
          cases hmine
        | some id' =>
          have hcv := carved_is_mine (h.ledger.shaped id') (h.of_bucket v c id' hv ho)
          rw [h.ledger.mine_once id' id c.ptr hcv hmine]
    · rintro (hp | ⟨v, c, hv, ho, rfl⟩)
      · obtain ⟨f, hf, rfl⟩ := List.mem_map.mp hp
        exact (h.ledger.free_carved id f hf).1
      · exact h.of_bucket v c id hv ho
  inside := by
    intro id p hp
    rw [free_iff_carved hw hT, ← h.places.carved] at hp
    exact Bucket.carved_bounds (h.ledger.shaped id) hp
  apart := by
    intro id
    refine (hw.free_once id).imp_of_mem ?_
    intro p q hp hq hne
    exact Bucket.chunks_apart ((free_iff_carved hw hT id p).mp hp)
      ((free_iff_carved hw hT id q).mp hq) hne
  goes_back := by
    intro v c hv
    unfold GoesBack
    have hne := (h.ledger.backed v c hv).1
    rcases h.ledger.release_cases hv h.bailing with ⟨id, hcv, heq⟩ | ⟨hlive, hm, heq⟩
    · have hmine := carved_is_mine (h.ledger.shaped id) hcv
      cases ho : st.origin v with
      | none =>
        rw [h.of_heap v c hv ho id] at hmine
        cases hmine
      | some id' =>
        have hcv' := carved_is_mine (h.ledger.shaped id') (h.of_bucket v c id' hv ho)
        rw [h.ledger.mine_once id' id c.ptr hcv' hmine]
        exact heq
    · cases ho : st.origin v with
      | none => exact ⟨hlive, heq.trans (free_heap_live hne hlive)⟩
      | some id =>
        have hmine := carved_is_mine (h.ledger.shaped id) (h.of_bucket v c id hv ho)
        rw [hm id] at hmine
        cases hmine
  no_bad_free := h.no_bad_free

/-- A new pool gave no address to `delete[]`. -/
theorem allocate_flags (A : Allocator) (canary_sz : Nat) (cnts : List (bucket_id × Nat))
    (w : memPool) : (memPool.allocate A canary_sz cnts w).bailing = w.bailing ∧
      (memPool.allocate A canary_sz cnts w).heap.bad = w.heap.bad := by
  induction cnts generalizing w with
  | nil => exact ⟨rfl, rfl⟩
  | cons head rest ih => exact ih _

/-- In each run of `acquire` and `release`, for any number of owners, the chunks that the pool was
made with stay exclusive. -/
theorem chunks_are_exclusive (A : Allocator) (canary_sz n₁ n₂ n₃ n₄ n₅ : Nat)
    (calls : List call) :
    lib.run.Always (Owners.step A) (Exclusive (memPool.init A canary_sz n₁ n₂ n₃ n₄ n₅))
      (.start (memPool.init A canary_sz n₁ n₂ n₃ n₄ n₅)) calls := by
  have hnew : ∀ v, (Owners.start (memPool.init A canary_sz n₁ n₂ n₃ n₄ n₅)).out v = none :=
    fun _ => rfl
  have hinit := Conserved.init A canary_sz n₁ n₂ n₃ n₄ n₅ hnew
  have hflags := allocate_flags A canary_sz (counts n₁ n₂ n₃ n₄ n₅) { bucket := fun _ => {} }
  have hstart : Tracked (memPool.init A canary_sz n₁ n₂ n₃ n₄ n₅)
      (.start (memPool.init A canary_sz n₁ n₂ n₃ n₄ n₅)) := by
    refine ⟨hinit, fun _ => ⟨rfl, rfl, rfl, rfl⟩, hflags.1, hflags.2, ?_, ?_⟩
    · intro v c id hc
      cases hc
    · intro v c hc
      cases hc
  have hall : lib.run.Always (Owners.step A) (Tracked (memPool.init A canary_sz n₁ n₂ n₃ n₄ n₅))
      (.start (memPool.init A canary_sz n₁ n₂ n₃ n₄ n₅)) calls :=
    lib.run.always_of_step (fun _ _ _ h hs => tracked_step A h hs) hstart calls
  exact hall.mono fun st h => tracked_exclusive hinit hnew h

end socle.mempool
