-- The memory pool (common/mempool/mempool.cpp): ten buckets of equal chunks
-- that are carved from one block each, and the heap for every request that no
-- bucket serves. Addresses are numbers, and 0 is `nullptr`.
import Mathlib.Tactic
import Mathlib.Logic.Function.Basic

namespace socle.mempool

/-! ## The heap -/

structure Block where
  addr : Nat
  len : Nat
deriving DecidableEq, Repr

/-- Two blocks share no byte, and no address when one of them is empty. -/
def Block.Apart (a b : Block) : Prop :=
  a.addr + max a.len 1 ≤ b.addr ∨ b.addr + max b.len 1 ≤ a.addr

instance : Std.Symm Block.Apart :=
  ⟨fun _ _ => Or.symm⟩

/-- The blocks that the program holds from the heap, how often it asked for one, and the
addresses that it gave back without holding a block there. -/
structure Heap where
  live : List Block := []
  asked : Nat := 0
  bad : List Nat := []

/-- Where `malloc` and `new[]` put a block: any function of the number of requests so far, the
live blocks and the length, as long as the block is apart from every live one. -/
structure Allocator where
  place : Nat → List Block → Nat → Nat
  place_ne_null : ∀ t live n, place t live n ≠ 0
  place_apart : ∀ t live n, ∀ b ∈ live, Block.Apart ⟨place t live n, n⟩ b

/-- `new unsigned char[n]`, and `malloc(n)`. -/
def Heap.alloc (A : Allocator) (n : Nat) (h : Heap) : Nat × Heap :=
  let p := A.place h.asked h.live n
  (p, { h with live := ⟨p, n⟩ :: h.live, asked := h.asked + 1 })

/-- `delete[] p`. -/
def Heap.dealloc (p : Nat) (h : Heap) : Heap :=
  if p = 0 then h
  else if h.live.any (fun b => b.addr = p) then
    { h with live := h.live.filter (fun b => b.addr ≠ p) }
  else { h with bad := p :: h.bad }

/-! ## Chunks and buckets -/

inductive pool_type_t
  | POOL
  | HEAP
deriving DecidableEq, Repr

/-- A chunk as `acquire` hands it out. `mem_chunk(p, c)` is a chunk of the pool by default. -/
structure mem_chunk where
  ptr : Nat
  capacity : Nat
  in_pool : Bool := false
  pool_type : pool_type_t := .POOL
deriving DecidableEq, Repr

inductive bucket_id
  | bucket_32 | bucket_64 | bucket_128 | bucket_256 | bucket_1k
  | bucket_5k | bucket_10k | bucket_20k | bucket_35k | bucket_50k
deriving DecidableEq, Repr

/-- The chunk size that each member is built with. -/
def bucket_id.sz : bucket_id → Nat
  | bucket_32 => 32
  | bucket_64 => 64
  | bucket_128 => 128
  | bucket_256 => 256
  | bucket_1k => 1024
  | bucket_5k => 5 * 1024
  | bucket_10k => 10 * 1024
  | bucket_20k => 20 * 1024
  | bucket_35k => 35 * 1024
  | bucket_50k => 50 * 1024

open bucket_id

/-- `std::set<Bucket*> buckets`, ordered by address, so in the order of the members. -/
def buckets : List bucket_id :=
  [bucket_32, bucket_64, bucket_128, bucket_256, bucket_1k,
   bucket_5k, bucket_10k, bucket_20k, bucket_35k, bucket_50k]

/-- A bucket of chunks of `sz` bytes. The stack `bucket` has its top at the head. -/
structure Bucket (sz : Nat) where
  bucket : List mem_chunk := []
  bigptr : Nat := 0
  endptr : Nat := 0
  count : Nat := 0
  canary_sz : Nat := 0

/-- The loop of `init_memory` that puts the chunks from `cur_ptr` on into the stack. -/
def stockpile (sz canary_sz stop : Nat) : Nat → Nat → List mem_chunk → List mem_chunk
  | 0, _, bucket => bucket
  | fuel + 1, cur_ptr, bucket =>
    if cur_ptr < stop then
      stockpile sz canary_sz stop fuel (cur_ptr + (sz + canary_sz))
        ({ ptr := cur_ptr, capacity := sz } :: bucket)
    else bucket

/-- `Bucket::init_memory`. Each turn of its loop goes `sz` bytes or more forward, so it has at
most as many turns as the block has bytes. -/
def Bucket.init_memory (A : Allocator) (canary_sz cnt sz : Nat) (h : Heap) : Bucket sz × Heap :=
  let allocated := cnt * sz + cnt * canary_sz + canary_sz
  let (bigptr, h) := h.alloc A allocated
  ({ bucket := stockpile sz canary_sz (bigptr + allocated) allocated (bigptr + canary_sz) []
     bigptr, endptr := bigptr + allocated, count := cnt, canary_sz }, h)

def Bucket.is_mine {sz : Nat} (b : Bucket sz) (ptr : Nat) : Bool :=
  b.bigptr ≤ ptr && ptr < b.endptr

def Bucket.release {sz : Nat} (b : Bucket sz) (mch : mem_chunk) : Bucket sz :=
  if b.is_mine mch.ptr then { b with bucket := { mch with in_pool := true } :: b.bucket } else b

def Bucket.acquire {sz : Nat} (b : Bucket sz) : Option (mem_chunk × Bucket sz) :=
  match b.bucket with
  | [] => none
  | mem :: rest => some (mem, { b with bucket := rest })

/-! ## The pool -/

/-- The pool and the heap behind it. `bailing` is set when the program exits. -/
structure memPool where
  bucket : (id : bucket_id) → Bucket id.sz
  bailing : Bool := false
  heap : Heap := {}

def memPool.put (w : memPool) (id : bucket_id) (b : Bucket id.sz) : memPool :=
  { w with bucket := Function.update w.bucket id b }

/-- `memPool::allocate`: the buckets get their memory in the order of `counts`. -/
def memPool.allocate (A : Allocator) (canary_sz : Nat) :
    List (bucket_id × Nat) → memPool → memPool
  | [], w => w
  | (id, cnt) :: rest, w =>
    let (b, h) := Bucket.init_memory A canary_sz cnt id.sz w.heap
    memPool.allocate A canary_sz rest { w.put id b with heap := h }

/-- The number of chunks of each bucket, from the five arguments of `allocate`. -/
def counts (n_sz256 n_sz1k n_sz5k n_sz10k n_sz20k : Nat) : List (bucket_id × Nat) :=
  [(bucket_32, n_sz256 * 16), (bucket_64, n_sz256 * 8), (bucket_128, n_sz256 * 4),
   (bucket_256, n_sz256), (bucket_1k, n_sz1k), (bucket_5k, n_sz5k), (bucket_10k, n_sz10k),
   (bucket_20k, n_sz20k), (bucket_35k, n_sz20k), (bucket_50k, n_sz20k)]

/-- A new pool on a heap that holds no block yet. -/
def memPool.init (A : Allocator) (canary_sz n_sz256 n_sz1k n_sz5k n_sz10k n_sz20k : Nat) :
    memPool :=
  memPool.allocate A canary_sz (counts n_sz256 n_sz1k n_sz5k n_sz10k n_sz20k)
    { bucket := fun _ => {} }

def pick_bucket (s : Nat) : Option bucket_id :=
  if s > 50 * 1024 then none
  else if s ≤ 32 then some bucket_32
  else if s ≤ 1024 then
    if s > 256 then some bucket_1k
    else if s > 128 then some bucket_256
    else if s > 64 then some bucket_128
    else if s > 32 then some bucket_64
    else none
  else
    if s > 35 * 1024 then some bucket_50k
    else if s > 20 * 1024 then some bucket_35k
    else if s > 10 * 1024 then some bucket_20k
    else if s > 5 * 1024 then some bucket_10k
    else if s > 1 * 1024 then some bucket_5k
    else none

/-- The loop of `tryhard_available`. Every bucket that it passes raises `overkill_level`. -/
def tryhard (w : memPool) (s : Nat) : Nat → List bucket_id → Option (mem_chunk × memPool)
  | _, [] => none
  | overkill_level, buck :: rest =>
    if overkill_level > 3 then none
    else if buck.sz ≥ s then
      match (w.bucket buck).acquire with
      | some (mem, b) => some (mem, w.put buck b)
      | none => tryhard w s (overkill_level + 1) rest
    else tryhard w s (overkill_level + 1) rest

def memPool.tryhard_available (w : memPool) (s : Nat) : Option (mem_chunk × memPool) :=
  tryhard w s 1 buckets

def memPool.from_heap (A : Allocator) (w : memPool) (s : Nat) : mem_chunk × memPool :=
  let (ptr, h) := w.heap.alloc A s
  ({ ptr, capacity := s, in_pool := false, pool_type := .HEAP }, { w with heap := h })

def memPool.free_heap (w : memPool) (mch : mem_chunk) : memPool :=
  { w with heap := w.heap.dealloc mch.ptr }

def memPool.find_by_address (w : memPool) (ptr : Nat) : Option bucket_id :=
  buckets.find? fun x => (w.bucket x).is_mine ptr

def memPool.find_ptr_size (w : memPool) (ptr : Nat) : Nat :=
  match w.find_by_address ptr with
  | some id => id.sz
  | none => 0

def memPool.acquire (A : Allocator) (w : memPool) (sz : Nat) : mem_chunk × memPool :=
  if sz = 0 then ({ ptr := 0, capacity := 0 }, w)
  else
    match pick_bucket sz with
    | none =>
      match w.tryhard_available sz with
      | some mem => mem
      | none => w.from_heap A sz
    | some mem_bucket =>
      match (w.bucket mem_bucket).acquire with
      | some (free_entry, b) =>
        ({ free_entry with in_pool := false, pool_type := .POOL }, w.put mem_bucket b)
      | none => w.from_heap A sz

def memPool.release (w : memPool) (to_ret : mem_chunk) : memPool :=
  if to_ret.ptr = 0 then w
  else if w.bailing then w
  else if to_ret.pool_type = .HEAP then w.free_heap to_ret
  else
    match w.find_by_address to_ret.ptr with
    | none => w.free_heap to_ret
    | some mem_pool => w.put mem_pool ((w.bucket mem_pool).release to_ret)

end socle.mempool
