-- Who holds which chunk of the pool. A ledger names a holder for each chunk
-- that is out, and `Sound` says that pool, heap and ledger agree. The three
-- moves of a chunk (acquire, release, hand over) keep it.
import Socle.Lib.Ledger
import Socle.MemPool

namespace socle.mempool

open lib.ledger

/-! ## The places of the chunks -/

/-- The address of chunk `k`. -/
def Bucket.chunk_at {sz : Nat} (b : Bucket sz) (k : Nat) : Nat :=
  b.bigptr + b.canary_sz + k * (sz + b.canary_sz)

/-- A chunk that `init_memory` made starts at `p`. -/
def Bucket.Carved {sz : Nat} (b : Bucket sz) (p : Nat) : Prop :=
  ∃ k < b.count, p = b.chunk_at k

instance {sz : Nat} (b : Bucket sz) (p : Nat) : Decidable (b.Carved p) :=
  inferInstanceAs (Decidable (∃ k < b.count, p = b.chunk_at k))

/-- How many bytes really stand behind `p`: the chunk size of the bucket that `p` was carved
from, or the length of the live block of the heap. Nothing stands behind `nullptr`. -/
def extent (w : memPool) (p : Nat) : Option Nat :=
  if p = 0 then some 0
  else
    match w.find_by_address p with
    | some id => if (w.bucket id).Carved p then some id.sz else none
    | none => (w.heap.live.find? fun b => b.addr = p).map Block.len

/-- The block of the bucket has room for its chunks and their canaries. -/
def Bucket.Shaped {sz : Nat} (b : Bucket sz) : Prop :=
  b.endptr = b.bigptr + (b.count * sz + b.count * b.canary_sz + b.canary_sz)

theorem bucket_id.sz_pos (id : bucket_id) : 0 < id.sz := by
  cases id <;> simp [bucket_id.sz]

theorem mem_buckets (id : bucket_id) : id ∈ buckets := by
  cases id <;> simp [buckets]

theorem Bucket.is_mine_iff {sz : Nat} (b : Bucket sz) (p : Nat) :
    b.is_mine p = true ↔ b.bigptr ≤ p ∧ p < b.endptr := by
  simp [Bucket.is_mine]

/-- A chunk lies in the block of its bucket, with all of its bytes. -/
theorem Bucket.carved_bounds {sz : Nat} {b : Bucket sz} {p : Nat} (hs : b.Shaped)
    (hp : b.Carved p) : b.bigptr ≤ p ∧ p + sz ≤ b.endptr := by
  obtain ⟨k, hk, rfl⟩ := hp
  have hle : (k + 1) * (sz + b.canary_sz) ≤ b.count * (sz + b.canary_sz) :=
    Nat.mul_le_mul_right _ hk
  have hk1 : (k + 1) * (sz + b.canary_sz) = k * (sz + b.canary_sz) + (sz + b.canary_sz) := by ring
  have hc : b.count * (sz + b.canary_sz) = b.count * sz + b.count * b.canary_sz := by ring
  rw [Bucket.Shaped] at hs
  simp only [Bucket.chunk_at]
  omega

theorem carved_is_mine {id : bucket_id} {b : Bucket id.sz} {p : Nat} (hs : b.Shaped)
    (hp : b.Carved p) : b.is_mine p = true := by
  have hb := Bucket.carved_bounds hs hp
  have hpos := id.sz_pos
  rw [Bucket.is_mine_iff]
  omega

theorem find_by_address_some {w : memPool} {p : Nat} {id : bucket_id}
    (h : w.find_by_address p = some id) : (w.bucket id).is_mine p = true := by
  unfold memPool.find_by_address at h
  simpa using List.find?_some h

theorem find_by_address_none {w : memPool} {p : Nat} :
    w.find_by_address p = none ↔ ∀ id, (w.bucket id).is_mine p = false := by
  unfold memPool.find_by_address
  rw [List.find?_eq_none]
  constructor
  · intro h id
    simpa using h id (mem_buckets id)
  · intro h id _
    simp [h id]

/-! ## What `acquire` asks for -/

/-- The bucket that `pick_bucket` gives is large enough. -/
theorem pick_bucket_fits {s : Nat} {id : bucket_id} (h : pick_bucket s = some id) : s ≤ id.sz := by
  unfold pick_bucket at h
  grind [bucket_id.sz]

/-- Only a request that is larger than every chunk finds no bucket. -/
theorem pick_bucket_none {s : Nat} (h : pick_bucket s = none) (id : bucket_id) : id.sz < s := by
  have hlarge : s > 50 * 1024 := by
    unfold pick_bucket at h
    grind
  cases id <;> simp only [bucket_id.sz] <;> omega

theorem tryhard_none {w : memPool} {s : Nat} (hs : ∀ id : bucket_id, id.sz < s) (level : Nat)
    (ids : List bucket_id) : tryhard w s level ids = none := by
  induction ids generalizing level with
  | nil => rfl
  | cons buck rest ih =>
    have hlt : ¬ buck.sz ≥ s := Nat.not_le.mpr (hs buck)
    simp [tryhard, hlt, ih]

/-- What `acquire` does for a request of `n > 0` bytes: it takes the top chunk of the picked
bucket, or a block of `n` bytes from the heap. -/
theorem acquire_cases (A : Allocator) (w : memPool) {n : Nat} (hn : n ≠ 0) :
    (∃ id c rest, pick_bucket n = some id ∧ (w.bucket id).bucket = c :: rest ∧
      w.acquire A n = ({ c with in_pool := false, pool_type := .POOL },
        w.put id { w.bucket id with bucket := rest })) ∨
    ((∀ id, pick_bucket n = some id → (w.bucket id).bucket = []) ∧
      w.acquire A n = w.from_heap A n) := by
  unfold memPool.acquire
  rw [if_neg hn]
  cases hp : pick_bucket n with
  | none =>
    right
    have ht : w.tryhard_available n = none := tryhard_none (pick_bucket_none hp) 1 buckets
    simp [ht]
  | some id =>
    cases hb : (w.bucket id).bucket with
    | nil =>
      right
      refine ⟨?_, by simp [Bucket.acquire, hb]⟩
      intro id' h'
      cases h'
      exact hb
    | cons c rest =>
      left
      exact ⟨id, c, rest, rfl, hb, by simp [Bucket.acquire, hb]⟩

/-! ## The ledger -/

/-- Memory of `n` bytes stands behind `p`: a chunk of a bucket, or a block of the heap. -/
inductive Backed (w : memPool) (p n : Nat) : Prop
  | carved (id : bucket_id) (hp : (w.bucket id).Carved p) (hn : n = id.sz)
  | heap (hp : ⟨p, n⟩ ∈ w.heap.live) (hm : ∀ id, (w.bucket id).is_mine p = false)

variable {ι κ : Type*}

/-- The buckets lie apart from each other in live blocks of the heap. -/
structure Laid (w : memPool) : Prop where
  shaped : ∀ id, (w.bucket id).Shaped
  mine_once : ∀ id id' p, (w.bucket id).is_mine p = true → (w.bucket id').is_mine p = true →
    id = id'
  region_live : ∀ id, (w.bucket id).bigptr < (w.bucket id).endptr →
    ⟨(w.bucket id).bigptr, (w.bucket id).endptr - (w.bucket id).bigptr⟩ ∈ w.heap.live
  live_apart : w.heap.live.Pairwise Block.Apart
  live_ne_null : ∀ b ∈ w.heap.live, b.addr ≠ 0

/-- Pool, heap and ledger `T` agree: each free chunk has the capacity of its bucket and is free
once, and each chunk that is out is backed by as much memory as it says, has one holder and is
not free. -/
structure Sound (w : memPool) (T : ι → Option mem_chunk) : Prop extends Laid w where
  free_carved : ∀ id, ∀ c ∈ (w.bucket id).bucket,
    (w.bucket id).Carved c.ptr ∧ c.capacity = id.sz
  free_once : ∀ id, ((w.bucket id).bucket.map mem_chunk.ptr).Nodup
  backed : ∀ i c, T i = some c → c.ptr ≠ 0 ∧ 0 < c.capacity ∧ Backed w c.ptr c.capacity
  heap_type : ∀ i c, T i = some c → c.pool_type = .HEAP →
    ∀ id, (w.bucket id).is_mine c.ptr = false
  held_once : ∀ i j c d, T i = some c → T j = some d → c.ptr = d.ptr → i = j
  held_not_free : ∀ i c id, T i = some c → ∀ f ∈ (w.bucket id).bucket, f.ptr ≠ c.ptr

variable {w : memPool} {T : ι → Option mem_chunk}

theorem Laid.carved_ne_null (h : Laid w) {id : bucket_id} {p : Nat}
    (hp : (w.bucket id).Carved p) : p ≠ 0 := by
  have hb := Bucket.carved_bounds (h.shaped id) hp
  have hpos := id.sz_pos
  have := h.live_ne_null _ (h.region_live id (by omega))
  simp only at this
  omega

/-- The extent of a place that is backed is the size that it is backed with. -/
theorem Laid.extent_of_backed (h : Laid w) {p n : Nat} (hp : p ≠ 0) (hb : Backed w p n) :
    extent w p = some n := by
  unfold extent
  rw [if_neg hp]
  cases hb with
  | carved id hc hn =>
    have hm := carved_is_mine (h.shaped id) hc
    cases hf : w.find_by_address p with
    | none =>
      rw [find_by_address_none.mp hf id] at hm
      cases hm
    | some id' =>
      have hid := h.mine_once id' id p (find_by_address_some hf) hm
      subst hid
      simp [hc, hn]
  | heap hl hm =>
    rw [find_by_address_none.mpr hm]
    cases hf : w.heap.live.find? fun b => b.addr = p with
    | none => simpa using List.find?_eq_none.mp hf _ hl
    | some b =>
      have hb := List.mem_of_find?_eq_some hf
      have haddr : b.addr = p := by simpa using List.find?_some hf
      -- two live blocks at one address are one block
      by_cases he : b = ⟨p, n⟩
      · simp [he]
      · have ha := h.live_apart.forall hb hl he
        simp only [Block.Apart] at ha
        omega

/-- Each holder of `T'` holds what its own holder of `T` holds. This covers a chunk that is
handed over, swapped or dropped. -/
theorem Sound.rename {T' : κ → Option mem_chunk} (h : Sound w T) (f : κ → ι)
    (hf : ∀ j c, T' j = some c → ∃ d, T (f j) = some d ∧ c.ptr = d.ptr ∧
      c.capacity = d.capacity ∧ (c.pool_type = .HEAP → d.pool_type = .HEAP))
    (inj : ∀ j j' c c', T' j = some c → T' j' = some c' → f j = f j' → j = j') :
    Sound w T' where
  toLaid := h.toLaid
  free_carved := h.free_carved
  free_once := h.free_once
  backed := by
    intro j c hc
    obtain ⟨d, hd, hp, hcap, -⟩ := hf j c hc
    rw [hp, hcap]
    exact h.backed _ d hd
  heap_type := by
    intro j c hc ht
    obtain ⟨d, hd, hp, -, htype⟩ := hf j c hc
    rw [hp]
    exact h.heap_type _ d hd (htype ht)
  held_once := by
    intro j j' c c' hc hc' hptr
    obtain ⟨d, hd, hp, -⟩ := hf j c hc
    obtain ⟨d', hd', hp', -⟩ := hf j' c' hc'
    exact inj j j' c c' hc hc' (h.held_once _ _ d d' hd hd' (by rw [← hp, ← hp', hptr]))
  held_not_free := by
    intro j c id hc g hg
    obtain ⟨d, hd, hp, -⟩ := hf j c hc
    rw [hp]
    exact h.held_not_free _ d id hd g hg

/-- A ledger that holds less agrees as well. -/
theorem Sound.drop {T' : ι → Option mem_chunk} (h : Sound w T)
    (hf : ∀ j c, T' j = some c → T j = some c) : Sound w T' :=
  h.rename (fun j => j) (fun j c hc => ⟨c, hf j c hc, rfl, rfl, fun ht => ht⟩)
    (fun _ _ _ _ _ _ hj => hj)

/-- The ledger in which holder `i`, who had nothing, has `o` instead of holder `j`: each holder has
what a holder of `T` had. -/
theorem hand_over_names [DecidableEq ι] {T : ι → Option mem_chunk} {i j : ι} (hij : i ≠ j)
    {o : Option mem_chunk} (ho : ∀ c, o = some c → ∃ d, T j = some d ∧ c.ptr = d.ptr ∧
      c.capacity = d.capacity ∧ (c.pool_type = .HEAP → d.pool_type = .HEAP)) :
    (∀ k c, Function.update (Function.update T i o) j none k = some c →
      ∃ d, Function.update T i none (if k = i then j else k) = some d ∧ c.ptr = d.ptr ∧
        c.capacity = d.capacity ∧ (c.pool_type = .HEAP → d.pool_type = .HEAP)) ∧
    ∀ k k' c c', Function.update (Function.update T i o) j none k = some c →
      Function.update (Function.update T i o) j none k' = some c' →
      (if k = i then j else k) = (if k' = i then j else k') → k = k' := by
  have hne : ∀ k e, Function.update (Function.update T i o) j none k = some e → k ≠ j := by
    intro k e hk
    exact (update_none_eq_some.mp hk).1
  constructor
  · intro k c hk
    obtain ⟨-, hk⟩ := update_none_eq_some.mp hk
    rcases update_eq_some.mp hk with ⟨rfl, hgot⟩ | ⟨hki, hk⟩
    · rw [if_pos rfl, Function.update_of_ne hij.symm]
      exact ho c hgot
    · refine ⟨c, ?_, rfl, rfl, fun ht => ht⟩
      rwa [if_neg hki, Function.update_of_ne hki]
  · intro k k' c c' hk hk' heq
    have hkj := hne k c hk
    have hkj' := hne k' c' hk'
    by_cases h₁ : k = i
    · by_cases h₂ : k' = i
      · rw [h₁, h₂]
      · rw [if_pos h₁, if_neg h₂] at heq
        exact absurd heq.symm hkj'
    · by_cases h₂ : k' = i
      · rw [if_pos h₂, if_neg h₁] at heq
        exact absurd heq hkj
      · rwa [if_neg h₁, if_neg h₂] at heq

/-- Holder `i`, who has nothing, gets what holder `j` has. -/
theorem Sound.hand_over [DecidableEq ι] {i j : ι} (h : Sound w (Function.update T i none))
    (hij : i ≠ j) {o : Option mem_chunk} (ho : ∀ c, o = some c → ∃ d, T j = some d ∧
      c.ptr = d.ptr ∧ c.capacity = d.capacity ∧ (c.pool_type = .HEAP → d.pool_type = .HEAP)) :
    Sound w (Function.update (Function.update T i o) j none) := by
  rcases hand_over_names hij ho with ⟨hnames, hinj⟩
  exact h.rename _ hnames hinj

/-- What a ledger needs not to say. -/
theorem Sound.forget [DecidableEq ι] (h : Sound w T) (i : ι) :
    Sound w (Function.update T i none) := by
  exact h.drop fun j c hc => (update_none_eq_some.mp hc).2

/-! ## The three moves -/

/-- A state of the pool with the same places of the buckets. -/
def SamePlaces (w w' : memPool) : Prop :=
  ∀ id, (w'.bucket id).bigptr = (w.bucket id).bigptr ∧
    (w'.bucket id).endptr = (w.bucket id).endptr ∧
    (w'.bucket id).count = (w.bucket id).count ∧
    (w'.bucket id).canary_sz = (w.bucket id).canary_sz

theorem SamePlaces.trans {w w' w'' : memPool} (h : SamePlaces w w') (h' : SamePlaces w' w'') :
    SamePlaces w w'' := fun id =>
  ⟨(h' id).1.trans (h id).1, (h' id).2.1.trans (h id).2.1, (h' id).2.2.1.trans (h id).2.2.1,
    (h' id).2.2.2.trans (h id).2.2.2⟩

theorem SamePlaces.is_mine {w w' : memPool} (h : SamePlaces w w') (id : bucket_id) (p : Nat) :
    (w'.bucket id).is_mine p = (w.bucket id).is_mine p := by
  simp [Bucket.is_mine, (h id).1, (h id).2.1]

theorem SamePlaces.carved {w w' : memPool} (h : SamePlaces w w') (id : bucket_id) (p : Nat) :
    (w'.bucket id).Carved p ↔ (w.bucket id).Carved p := by
  simp [Bucket.Carved, Bucket.chunk_at, (h id).1, (h id).2.2.1, (h id).2.2.2]

theorem SamePlaces.laid {w w' : memPool} (h : SamePlaces w w') (hl : Laid w)
    (hlive : w'.heap.live = w.heap.live) : Laid w' where
  shaped := by
    intro id
    have := hl.shaped id
    unfold Bucket.Shaped at *
    rw [(h id).1, (h id).2.1, (h id).2.2.1, (h id).2.2.2]
    exact this
  mine_once := by
    intro id id' p hp hp'
    rw [h.is_mine] at hp hp'
    exact hl.mine_once id id' p hp hp'
  region_live := by
    intro id hlt
    rw [(h id).1, (h id).2.1] at hlt ⊢
    rw [hlive]
    exact hl.region_live id hlt
  live_apart := by rw [hlive]; exact hl.live_apart
  live_ne_null := by rw [hlive]; exact hl.live_ne_null

theorem same_places_put (w : memPool) (id : bucket_id) (st : List mem_chunk) :
    SamePlaces w (w.put id { w.bucket id with bucket := st }) := by
  intro id'
  by_cases h : id' = id
  · subst h
    simp [memPool.put]
  · simp [memPool.put, Function.update_of_ne h]

theorem put_bucket (w : memPool) (id id' : bucket_id) (st : List mem_chunk) :
    ((w.put id { w.bucket id with bucket := st }).bucket id').bucket =
      if id' = id then st else (w.bucket id').bucket := by
  by_cases h : id' = id
  · subst h
    simp [memPool.put]
  · simp [memPool.put, h]

theorem SamePlaces.backed {w w' : memPool} (h : SamePlaces w w') {p n : Nat}
    (hlive : ⟨p, n⟩ ∈ w.heap.live → (∀ id, (w.bucket id).is_mine p = false) →
      ⟨p, n⟩ ∈ w'.heap.live) (hb : Backed w p n) : Backed w' p n := by
  cases hb with
  | carved id hp hn => exact .carved id ((h.carved id p).mpr hp) hn
  | heap hp hm =>
    refine .heap (hlive hp hm) fun id => ?_
    rw [h.is_mine]
    exact hm id

/-- A chunk that is out stays backed when its block stays live. -/
theorem Sound.out_backed (h : Sound w T) {w' : memPool} (hsame : SamePlaces w w')
    (hlive : ∀ j e, T j = some e → ⟨e.ptr, e.capacity⟩ ∈ w.heap.live →
      ⟨e.ptr, e.capacity⟩ ∈ w'.heap.live) :
    ∀ j e, T j = some e → e.ptr ≠ 0 ∧ 0 < e.capacity ∧ Backed w' e.ptr e.capacity := by
  intro j e he
  obtain ⟨hne, hpos, hback⟩ := h.backed j e he
  exact ⟨hne, hpos, hsame.backed (fun hl _ => hlive j e he hl) hback⟩

theorem Sound.out_heap_type (h : Sound w T) {w' : memPool} (hsame : SamePlaces w w') :
    ∀ j e, T j = some e → e.pool_type = .HEAP → ∀ id, (w'.bucket id).is_mine e.ptr = false := by
  intro j e he ht id
  rw [hsame.is_mine]
  exact h.heap_type j e he ht id

/-- The block of a chunk that no holder has goes back to the heap. -/
theorem Sound.free_heap (h : Sound w T) {c : mem_chunk}
    (hm : ∀ id, (w.bucket id).is_mine c.ptr = false)
    (hother : ∀ j e, T j = some e → e.ptr ≠ c.ptr) : Sound (w.free_heap c) T := by
  have hsame : SamePlaces w (w.free_heap c) := fun _ => ⟨rfl, rfl, rfl, rfl⟩
  have hsub : (w.free_heap c).heap.live.Sublist w.heap.live := by
    simp only [memPool.free_heap, Heap.dealloc]
    split
    · exact List.Sublist.refl _
    split
    · exact List.filter_sublist
    · exact List.Sublist.refl _
  have hkeep : ∀ b ∈ w.heap.live, b.addr ≠ c.ptr → b ∈ (w.free_heap c).heap.live := by
    intro b hb hne
    simp only [memPool.free_heap, Heap.dealloc]
    split
    · exact hb
    split
    · exact List.mem_filter.mpr ⟨hb, by simpa using hne⟩
    · exact hb
  refine ⟨⟨h.shaped, h.mine_once, ?_, ?_, ?_⟩, h.free_carved, h.free_once, ?_, h.heap_type,
    h.held_once, h.held_not_free⟩
  · intro id hlt
    refine hkeep _ (h.region_live id hlt) fun heq => ?_
    have hstart : (w.bucket id).is_mine c.ptr = true :=
      (Bucket.is_mine_iff _ _).mpr ⟨Nat.le_of_eq heq, heq ▸ hlt⟩
    rw [hm id] at hstart
    cases hstart
  · exact h.live_apart.sublist hsub
  · exact fun b hb => h.live_ne_null b (hsub.subset hb)
  · exact h.out_backed hsame fun j e he hl => hkeep _ hl (hother j e he)

/-- A chunk that no holder has goes back to the stack of its bucket. -/
theorem Sound.give_back (h : Sound w T) {c : mem_chunk} (hb : Backed w c.ptr c.capacity)
    {id : bucket_id} (hm : (w.bucket id).is_mine c.ptr = true)
    (hfree : ∀ id, ∀ f ∈ (w.bucket id).bucket, f.ptr ≠ c.ptr)
    (hother : ∀ j e, T j = some e → e.ptr ≠ c.ptr) :
    Sound (w.put id ((w.bucket id).release c)) T := by
  have hput : (w.bucket id).release c =
      { w.bucket id with bucket := { c with in_pool := true } :: (w.bucket id).bucket } := by
    simp [Bucket.release, hm]
  rw [hput]
  have hsame := same_places_put w id ({ c with in_pool := true } :: (w.bucket id).bucket)
  have hcv : (w.bucket id).Carved c.ptr ∧ c.capacity = id.sz := by
    cases hb with
    | carved id' hp hn =>
      have hid := h.mine_once id' id c.ptr (carved_is_mine (h.shaped id') hp) hm
      subst hid
      exact ⟨hp, hn⟩
    | heap _ hno =>
      rw [hno id] at hm
      cases hm
  refine ⟨hsame.laid h.toLaid rfl, ?_, ?_, ?_, ?_, h.held_once, ?_⟩
  · intro id' f hf
    rw [put_bucket] at hf
    rw [hsame.carved]
    split at hf
    · rename_i he
      subst he
      rcases List.mem_cons.mp hf with rfl | hf
      · exact hcv
      · exact h.free_carved id' f hf
    · exact h.free_carved id' f hf
  · intro id'
    rw [put_bucket]
    split
    · rename_i he
      subst he
      rw [List.map_cons, List.nodup_cons]
      refine ⟨?_, h.free_once id'⟩
      intro hin
      obtain ⟨f, hf, heq⟩ := List.mem_map.mp hin
      exact hfree id' f hf heq
    · exact h.free_once id'
  · exact h.out_backed hsame fun _ _ _ hl => hl
  · exact h.out_heap_type hsame
  · intro j e id' he f hf
    rw [put_bucket] at hf
    split at hf
    · rename_i hid
      subst hid
      rcases List.mem_cons.mp hf with rfl | hf
      · exact fun heq => hother j e he heq.symm
      · exact h.held_not_free j e id' he f hf
    · exact h.held_not_free j e id' he f hf

/-- A request is served to the byte when no larger chunk is there for it. -/
theorem Sound.acquire_exact (h : Sound w T) (A : Allocator) {n : Nat} (hn : n ≠ 0)
    (hf : ∀ id, pick_bucket n = some id → id.sz = n ∨ (w.bucket id).bucket = []) :
    (w.acquire A n).1.capacity = n := by
  rcases acquire_cases A w hn with ⟨id, c, rest, hpick, hb, heq⟩ | ⟨-, heq⟩
  · rw [heq]
    have hc := (h.free_carved id c (by rw [hb]; exact List.mem_cons_self)).2
    rcases hf id hpick with hsz | hempty
    · exact hc.trans hsz
    · rw [hb] at hempty
      cases hempty
  · rw [heq]
    rfl

/-- A new block of the heap is apart from the blocks of the buckets, so no bucket takes it for its
own. -/
theorem Laid.from_heap_not_mine (h : Laid w) (A : Allocator) (n : Nat) (id : bucket_id) :
    (w.bucket id).is_mine (w.from_heap A n).1.ptr = false := by
  by_contra hm
  rw [Bool.not_eq_false, Bucket.is_mine_iff] at hm
  have ha := A.place_apart w.heap.asked w.heap.live n _ (h.region_live id (by omega))
  simp only [memPool.from_heap, Heap.alloc, Block.Apart] at hm ha
  omega

/-- The heap gives a block to somebody who is not in the ledger. -/
theorem Sound.grow_heap (h : Sound w T) (A : Allocator) (n : Nat) :
    Sound (w.from_heap A n).2 T := by
  have hsame : SamePlaces w (w.from_heap A n).2 := fun _ => ⟨rfl, rfl, rfl, rfl⟩
  have hlive : ∀ b ∈ w.heap.live, b ∈ (w.from_heap A n).2.heap.live :=
    fun b hb => List.mem_cons_of_mem _ hb
  refine ⟨⟨h.shaped, h.mine_once, fun id hlt => hlive _ (h.region_live id hlt), ?_, ?_⟩,
    h.free_carved, h.free_once, ?_, h.heap_type, h.held_once, h.held_not_free⟩
  · exact List.pairwise_cons.mpr ⟨A.place_apart _ _ _, h.live_apart⟩
  · intro b hb
    rcases List.mem_cons.mp hb with rfl | hb
    · exact A.place_ne_null _ _ _
    · exact h.live_ne_null b hb
  · exact h.out_backed hsame fun _ _ _ hl => hlive _ hl

section
variable [DecidableEq ι]

/-- A chunk that nobody has goes to holder `i`. -/
theorem Sound.own (h : Sound w T) {i : ι} {d : mem_chunk} (hcap : 0 < d.capacity)
    (hb : d.ptr ≠ 0 ∧ Backed w d.ptr d.capacity)
    (htype : d.pool_type = .HEAP → ∀ id, (w.bucket id).is_mine d.ptr = false)
    (hnew : ∀ j e, j ≠ i → T j = some e → e.ptr ≠ d.ptr)
    (hfree : ∀ id, ∀ f ∈ (w.bucket id).bucket, f.ptr ≠ d.ptr) :
    Sound w (Function.update T i (some d)) := by
  have hcases : ∀ j e, Function.update T i (some d) j = some e →
      j = i ∧ e = d ∨ j ≠ i ∧ T j = some e := by
    intro j e he
    rcases update_eq_some.mp he with ⟨rfl, hsome⟩ | ⟨hj, he⟩
    · exact Or.inl ⟨rfl, (Option.some.inj hsome).symm⟩
    · exact Or.inr ⟨hj, he⟩
  refine ⟨h.toLaid, h.free_carved, h.free_once, ?_, ?_, ?_, ?_⟩
  · intro j e he
    rcases hcases j e he with ⟨-, rfl⟩ | ⟨-, he⟩
    · exact ⟨hb.1, hcap, hb.2⟩
    · exact h.backed j e he
  · intro j e he ht
    rcases hcases j e he with ⟨-, rfl⟩ | ⟨-, he⟩
    · exact htype ht
    · exact h.heap_type j e he ht
  · intro j j' e e' he he' hptr
    rcases hcases j e he with ⟨hj, hd⟩ | ⟨hj, hold⟩
    · rcases hcases j' e' he' with ⟨hj', -⟩ | ⟨hj', hold'⟩
      · rw [hj, hj']
      · rw [hd] at hptr
        exact absurd hptr.symm (hnew j' e' hj' hold')
    · rcases hcases j' e' he' with ⟨-, hd'⟩ | ⟨-, hold'⟩
      · rw [hd'] at hptr
        exact absurd hptr (hnew j e hj hold)
      · exact h.held_once j j' e e' hold hold' hptr
  · intro j e id he f hf
    rcases hcases j e he with ⟨-, rfl⟩ | ⟨-, he⟩
    · exact hfree id f hf
    · exact h.held_not_free j e id he f hf

omit [DecidableEq ι] in
/-- The top of a stack leaves it. -/
theorem Sound.pop (h : Sound w T) {id : bucket_id} {c : mem_chunk} {rest : List mem_chunk}
    (hb : (w.bucket id).bucket = c :: rest) :
    Sound (w.put id { w.bucket id with bucket := rest }) T ∧
      ∀ id', ∀ f ∈ ((w.put id { w.bucket id with bucket := rest }).bucket id').bucket,
        f.ptr ≠ c.ptr := by
  have hsame := same_places_put w id rest
  have hmem : ∀ id', ∀ f ∈ ((w.put id { w.bucket id with bucket := rest }).bucket id').bucket,
      f ∈ (w.bucket id').bucket := by
    intro id' f hf
    rw [put_bucket] at hf
    split at hf
    · rename_i he
      subst he
      rw [hb]
      exact List.mem_cons_of_mem _ hf
    · exact hf
  have hc : c ∈ (w.bucket id).bucket := by rw [hb]; exact List.mem_cons_self
  constructor
  · refine ⟨hsame.laid h.toLaid rfl, ?_, ?_, ?_, ?_, h.held_once, ?_⟩
    · intro id' f hf
      rw [hsame.carved]
      exact h.free_carved id' f (hmem id' f hf)
    · intro id'
      have hn := h.free_once id'
      rw [put_bucket]
      split
      · rename_i he
        subst he
        rw [hb, List.map_cons, List.nodup_cons] at hn
        exact hn.2
      · exact hn
    · exact h.out_backed hsame fun _ _ _ hl => hl
    · exact h.out_heap_type hsame
    · exact fun j e id' he f hf => h.held_not_free j e id' he f (hmem id' f hf)
  · -- a free chunk of any bucket with the address of `c` is `c` itself, so it is not in `rest`
    intro id' f hf heq
    have hid : id' = id := by
      refine h.mine_once id' id c.ptr ?_ ?_
      · rw [← heq]
        exact carved_is_mine (h.shaped id') (h.free_carved id' f (hmem id' f hf)).1
      · exact carved_is_mine (h.shaped id) (h.free_carved id c hc).1
    subst hid
    have hn := h.free_once id'
    rw [hb, List.map_cons, List.nodup_cons] at hn
    rw [put_bucket, if_pos rfl] at hf
    exact hn.1 (List.mem_map.mpr ⟨f, hf, heq⟩)

/-- A chunk of the top of a stack goes to holder `i`. -/
theorem Sound.take (h : Sound w T) {i : ι} {id : bucket_id} {c d : mem_chunk}
    {rest : List mem_chunk} (hb : (w.bucket id).bucket = c :: rest) (hp : d.ptr = c.ptr)
    (hcap : d.capacity = c.capacity) (htype : d.pool_type = .POOL) :
    Sound (w.put id { w.bucket id with bucket := rest }) (Function.update T i (some d)) := by
  obtain ⟨hpopped, hgone⟩ := h.pop hb
  have hc : c ∈ (w.bucket id).bucket := by rw [hb]; exact List.mem_cons_self
  obtain ⟨hcv, hcc⟩ := h.free_carved id c hc
  have hcarved : Backed (w.put id { w.bucket id with bucket := rest }) c.ptr id.sz :=
    .carved id (((same_places_put w id rest).carved id _).mpr hcv) rfl
  apply hpopped.own
  · rw [hcap, hcc]
    exact id.sz_pos
  · rw [hp, hcap, hcc]
    exact ⟨h.carved_ne_null hcv, hcarved⟩
  · intro ht
    rw [htype] at ht
    cases ht
  · -- the chunk `c` was free, so no other holder has its address
    intro j e _ he
    rw [hp]
    exact (h.held_not_free j e id he c hc).symm
  · rw [hp]
    exact hgone

/-- A new block of the heap goes to holder `i`. -/
theorem Sound.take_heap (h : Sound w T) (A : Allocator) {i : ι} {n : Nat} (hn : n ≠ 0) :
    Sound (w.from_heap A n).2 (Function.update T i (some (w.from_heap A n).1)) := by
  have hnot := h.from_heap_not_mine A n
  apply (h.grow_heap A n).own
  · exact Nat.pos_of_ne_zero hn
  · exact ⟨A.place_ne_null _ _ _, .heap List.mem_cons_self hnot⟩
  · exact fun _ => hnot
  · intro j e _ he heq
    obtain ⟨-, -, hb⟩ := h.backed j e he
    cases hb with
    | carved id hcv _ =>
      have hm := carved_is_mine (h.shaped id) hcv
      rw [heq, hnot id] at hm
      cases hm
    | heap hl _ =>
      have ha := A.place_apart w.heap.asked w.heap.live n _ hl
      simp only [memPool.from_heap, Heap.alloc, Block.Apart] at heq ha
      omega
  · intro id f hf heq
    have hm := carved_is_mine (h.shaped id) (h.free_carved id f hf).1
    rw [heq, hnot id] at hm
    cases hm

/-- `acquire` gives holder `i` a chunk of at least the size that it asked for. -/
theorem Sound.acquire (h : Sound w T) (A : Allocator) {i : ι} {n : Nat} (hn : n ≠ 0) :
    Sound (w.acquire A n).2 (Function.update T i (some (w.acquire A n).1)) ∧
      n ≤ (w.acquire A n).1.capacity := by
  rcases acquire_cases A w hn with ⟨id, c, rest, hpick, hb, heq⟩ | ⟨-, heq⟩
  · rw [heq]
    refine ⟨h.take hb rfl rfl rfl, ?_⟩
    have hc := (h.free_carved id c (by rw [hb]; exact List.mem_cons_self)).2
    have hfits := pick_bucket_fits hpick
    simp only
    omega
  · rw [heq]
    exact ⟨h.take_heap A hn, Nat.le_refl n⟩

/-- `release` takes back the chunk of holder `i`. -/
theorem Sound.release (h : Sound w T) {i : ι} {c : mem_chunk} (hc : T i = some c) :
    Sound (w.release c) (Function.update T i none) := by
  obtain ⟨hne, hpos, hback⟩ := h.backed i c hc
  have hrest : ∀ j e, Function.update T i none j = some e → j ≠ i ∧ T j = some e :=
    fun j e he => update_none_eq_some.mp he
  have hdrop : Sound w (Function.update T i none) := h.drop fun j e he => (hrest j e he).2
  have hother : ∀ j e, Function.update T i none j = some e → e.ptr ≠ c.ptr :=
    fun j e he heq => (hrest j e he).1 (h.held_once j i e c (hrest j e he).2 hc heq)
  unfold memPool.release
  rw [if_neg hne]
  split
  · exact hdrop
  split
  · exact hdrop.free_heap (h.heap_type i c hc ‹_›) hother
  · cases hfind : w.find_by_address c.ptr with
    | none => exact hdrop.free_heap (find_by_address_none.mp hfind) hother
    | some id =>
      exact hdrop.give_back hback (find_by_address_some hfind)
        (fun id f hf => h.held_not_free i c id hc f hf) hother
end

/-! ## A new pool -/

/-- The first `k` chunks from `start` on, the last one on top. -/
def carve (sz canary_sz start : Nat) : Nat → List mem_chunk
  | 0 => []
  | k + 1 =>
    { ptr := start + k * (sz + canary_sz), capacity := sz } :: carve sz canary_sz start k

theorem mem_carve {sz canary_sz start k : Nat} {c : mem_chunk} (h : c ∈ carve sz canary_sz start k) :
    c.capacity = sz ∧ ∃ j < k, c.ptr = start + j * (sz + canary_sz) := by
  induction k with
  | zero => cases h
  | succ k ih =>
    rcases List.mem_cons.mp h with rfl | h
    · exact ⟨rfl, k, Nat.lt_succ_self k, rfl⟩
    · obtain ⟨hc, j, hj, hp⟩ := ih h
      exact ⟨hc, j, by omega, hp⟩

theorem carve_nodup {sz canary_sz start : Nat} (hsz : 0 < sz) (k : Nat) :
    ((carve sz canary_sz start k).map mem_chunk.ptr).Nodup := by
  induction k with
  | zero => simp [carve]
  | succ k ih =>
    rw [carve, List.map_cons, List.nodup_cons]
    refine ⟨?_, ih⟩
    intro hin
    obtain ⟨c, hc, hp⟩ := List.mem_map.mp hin
    obtain ⟨-, j, hj, hp'⟩ := mem_carve hc
    have hlt : j * (sz + canary_sz) < k * (sz + canary_sz) :=
      Nat.mul_lt_mul_of_pos_right hj (by omega)
    rw [hp'] at hp
    simp only at hp
    omega

/-- The loop of `init_memory` ends with every chunk that fits before `stop`. The induction is
on the turns left, from the stack of the first `j` chunks. -/
theorem stockpile_eq_carve {sz canary_sz start cnt fuel j : Nat} (hsz : 0 < sz) (hj : j ≤ cnt)
    (hf : cnt ≤ j + fuel) :
    stockpile sz canary_sz (start + cnt * (sz + canary_sz)) fuel (start + j * (sz + canary_sz))
      (carve sz canary_sz start j) = carve sz canary_sz start cnt := by
  induction fuel generalizing j with
  | zero =>
    have : j = cnt := by omega
    subst this
    rfl
  | succ fuel ih =>
    by_cases hlt : j < cnt
    · have hstep : j * (sz + canary_sz) < cnt * (sz + canary_sz) :=
        Nat.mul_lt_mul_of_pos_right hlt (by omega)
      have hnext : start + j * (sz + canary_sz) + (sz + canary_sz) =
          start + (j + 1) * (sz + canary_sz) := by ring
      rw [stockpile, if_pos (by omega), hnext]
      exact ih (j := j + 1) hlt (by omega)
    · have : j = cnt := by omega
      subst this
      rw [stockpile, if_neg (Nat.lt_irrefl _)]

/-- `init_memory` fills a bucket with `cnt` chunks. -/
theorem init_memory_eq (A : Allocator) (canary_sz cnt sz : Nat) (hsz : 0 < sz) (h : Heap) :
    Bucket.init_memory A canary_sz cnt sz h =
      let allocated := cnt * sz + cnt * canary_sz + canary_sz
      let bigptr := A.place h.asked h.live allocated
      ({ bucket := carve sz canary_sz (bigptr + canary_sz) cnt
         bigptr, endptr := bigptr + allocated, count := cnt, canary_sz },
        { h with live := ⟨bigptr, allocated⟩ :: h.live, asked := h.asked + 1 }) := by
  have hfuel : cnt ≤ cnt * sz := Nat.le_mul_of_pos_right cnt hsz
  simp only [Bucket.init_memory, Heap.alloc]
  generalize A.place h.asked h.live (cnt * sz + cnt * canary_sz + canary_sz) = bigptr
  have hstop : bigptr + (cnt * sz + cnt * canary_sz + canary_sz) =
      bigptr + canary_sz + cnt * (sz + canary_sz) := by ring
  have hs : stockpile sz canary_sz (bigptr + canary_sz + cnt * (sz + canary_sz))
      (cnt * sz + cnt * canary_sz + canary_sz) (bigptr + canary_sz + 0 * (sz + canary_sz)) [] =
      carve sz canary_sz (bigptr + canary_sz) cnt :=
    stockpile_eq_carve hsz (Nat.zero_le _) (by omega)
  rw [Nat.zero_mul, Nat.add_zero, ← hstop] at hs
  exact congrArg (fun st => ((⟨st, _, _, _, _⟩ : Bucket sz), _)) hs

/-- A bucket that has no memory yet gets some. -/
theorem Sound.fill (h : Sound w T) (hT : ∀ i, T i = none) (A : Allocator) (canary_sz cnt : Nat)
    {id : bucket_id} (hid : w.bucket id = {}) :
    Sound { w.put id (Bucket.init_memory A canary_sz cnt id.sz w.heap).1 with
      heap := (Bucket.init_memory A canary_sz cnt id.sz w.heap).2 } T := by
  rw [init_memory_eq A canary_sz cnt id.sz id.sz_pos]
  simp only
  have hapart := A.place_apart w.heap.asked w.heap.live
    (cnt * id.sz + cnt * canary_sz + canary_sz)
  have hnull := A.place_ne_null w.heap.asked w.heap.live
    (cnt * id.sz + cnt * canary_sz + canary_sz)
  generalize A.place w.heap.asked w.heap.live (cnt * id.sz + cnt * canary_sz + canary_sz) =
    bigptr at hapart hnull
  -- the new block meets no block of another bucket
  have hclash : ∀ id' p, (w.bucket id').is_mine p = true → bigptr ≤ p →
      ¬ p < bigptr + (cnt * id.sz + cnt * canary_sz + canary_sz) := by
    intro id' p hp hlo hhi
    rw [Bucket.is_mine_iff] at hp
    have ha := hapart _ (h.region_live id' (by omega))
    simp only [Block.Apart] at ha
    omega
  exact {
    shaped := by
      intro id'
      by_cases he : id' = id
      · subst he
        simp [memPool.put, Bucket.Shaped]
      · simpa [memPool.put, he] using h.shaped id'
    mine_once := by
      intro id₁ id₂ p h₁ h₂
      by_cases he₁ : id₁ = id
      · by_cases he₂ : id₂ = id
        · rw [he₁, he₂]
        · subst he₁
          simp only [memPool.put, Function.update_self, Function.update_of_ne he₂] at h₁ h₂
          rw [Bucket.is_mine_iff] at h₁
          exact absurd h₁.2 (hclash id₂ p h₂ h₁.1)
      · by_cases he₂ : id₂ = id
        · subst he₂
          simp only [memPool.put, Function.update_self, Function.update_of_ne he₁] at h₁ h₂
          rw [Bucket.is_mine_iff] at h₂
          exact absurd h₂.2 (hclash id₁ p h₁ h₂.1)
        · simp only [memPool.put, Function.update_of_ne he₁, Function.update_of_ne he₂] at h₁ h₂
          exact h.mine_once id₁ id₂ p h₁ h₂
    region_live := by
      intro id' hlt
      by_cases he : id' = id
      · subst he
        simp [memPool.put]
      · simp only [memPool.put, Function.update_of_ne he] at hlt ⊢
        exact List.mem_cons_of_mem _ (h.region_live id' hlt)
    live_apart := List.pairwise_cons.mpr ⟨hapart, h.live_apart⟩
    live_ne_null := by
      intro b hb
      rcases List.mem_cons.mp hb with rfl | hb
      · exact hnull
      · exact h.live_ne_null b hb
    free_carved := by
      intro id' c hc
      by_cases he : id' = id
      · subst he
        simp only [memPool.put, Function.update_self] at hc ⊢
        obtain ⟨hcap, j, hj, hp⟩ := mem_carve hc
        exact ⟨⟨j, hj, hp⟩, hcap⟩
      · simp only [memPool.put, Function.update_of_ne he] at hc ⊢
        exact h.free_carved id' c hc
    free_once := by
      intro id'
      by_cases he : id' = id
      · subst he
        simp only [memPool.put, Function.update_self]
        exact carve_nodup id'.sz_pos cnt
      · simp only [memPool.put, Function.update_of_ne he]
        exact h.free_once id'
    backed := by simp [hT]
    heap_type := by simp [hT]
    held_once := by simp [hT]
    held_not_free := by simp [hT] }

/-- The buckets of `cnts` get their memory one by one. -/
theorem Sound.allocate (A : Allocator) (canary_sz : Nat) (hT : ∀ i, T i = none)
    {cnts : List (bucket_id × Nat)} (hn : (cnts.map Prod.fst).Nodup) (h : Sound w T)
    (hempty : ∀ id ∈ cnts.map Prod.fst, w.bucket id = {}) :
    Sound (memPool.allocate A canary_sz cnts w) T := by
  induction cnts generalizing w with
  | nil => exact h
  | cons head rest ih =>
    obtain ⟨id, cnt⟩ := head
    rw [List.map_cons, List.nodup_cons] at hn
    refine ih hn.2 (h.fill hT A canary_sz cnt (hempty id (by simp))) ?_
    intro id' hid'
    have hne : id' ≠ id := fun he => hn.1 (he ▸ hid')
    simp only [memPool.put, Function.update_of_ne hne]
    exact hempty id' (by simp [hid'])

/-- A new pool agrees with the ledger in which nobody holds a chunk. -/
theorem Sound.init (A : Allocator) (canary_sz n₁ n₂ n₃ n₄ n₅ : Nat) (hT : ∀ i, T i = none) :
    Sound (memPool.init A canary_sz n₁ n₂ n₃ n₄ n₅) T := by
  refine Sound.allocate A canary_sz hT (by simp [counts]) ?_ (fun _ _ => rfl)
  refine ⟨⟨?_, ?_, ?_, ?_, ?_⟩, ?_, ?_, ?_, ?_, ?_, ?_⟩
  all_goals simp [Bucket.Shaped, Bucket.is_mine, hT]

end socle.mempool
