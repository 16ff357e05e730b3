-- The memory buffer (common/buffer.cpp, common/buffer.hpp). A buffer is four
-- fields; its memory is in the world, which holds the pool, the bytes behind
-- every address and the switch between pool and `new[]`.
import Socle.PoolLedger

namespace socle.membuf

open mempool

/-! ## The world of the buffers -/

/-- One answer of `memPool::acquire`: what was asked, the chunk that was given, and the memory
behind the chunk at that time. -/
structure Handout where
  asked : Nat
  chunk : mem_chunk
  extent : Option Nat

/-- The pool, the bytes of the memory, and `buffer::use_pool`. No function of the code reads
`handed`: it keeps what `acquire` answered, the newest answer first. -/
structure World where
  pool : memPool
  mem : Nat → UInt8
  use_pool : Bool := true
  handed : List Handout := []

def World.acquire (A : Allocator) (w : World) (n : Nat) : mem_chunk × World :=
  let (c, pool) := w.pool.acquire A n
  (c, { w with pool, handed := ⟨n, c, extent pool c.ptr⟩ :: w.handed })

def World.release (w : World) (c : mem_chunk) : World :=
  { w with pool := w.pool.release c }

def World.new_array (A : Allocator) (w : World) (n : Nat) : Nat × World :=
  let (p, heap) := w.pool.heap.alloc A n
  (p, { w with pool := { w.pool with heap } })

def World.delete_array (w : World) (p : Nat) : World :=
  { w with pool := { w.pool with heap := w.pool.heap.dealloc p } }

def World.memcpy (w : World) (dst src n : Nat) : World :=
  { w with mem := fun a => if dst ≤ a ∧ a < dst + n then w.mem (src + (a - dst)) else w.mem a }

@[simp] theorem World.acquire_use_pool (A : Allocator) (w : World) (n : Nat) :
    (w.acquire A n).2.use_pool = w.use_pool := rfl

@[simp] theorem World.memcpy_use_pool (w : World) (dst src n : Nat) :
    (w.memcpy dst src n).use_pool = w.use_pool := rfl

/-! ## The buffer -/

/-- The fields of a buffer, with the defaults of the class. -/
structure buffer where
  data_ : Nat := 0
  size_ : Nat := 0
  capacity_ : Nat := 0
  free_ : Bool := true
deriving DecidableEq, Repr

variable (A : Allocator)

def buffer.dealloc (b : buffer) (w : World) : World :=
  if b.free_ = true ∧ b.capacity_ > 0 then
    if w.use_pool then w.release { ptr := b.data_, capacity := b.capacity_ }
    else w.delete_array b.data_
  else w

@[simp] theorem buffer.dealloc_use_pool (b : buffer) (w : World) :
    (b.dealloc w).use_pool = w.use_pool := by
  unfold buffer.dealloc
  split_ifs <;> rfl

/-- `buffer::release`, which is all that `~buffer` does. -/
def buffer.release (b : buffer) (w : World) : buffer × World :=
  ({ data_ := 0, size_ := 0, capacity_ := 0, free_ := false }, b.dealloc w)

def ctor (s : Nat) (w : World) : buffer × World :=
  if w.use_pool then
    let (mch, w) := w.acquire A s
    ({ data_ := mch.ptr, capacity_ := mch.capacity, size_ := 0 }, w)
  else
    let (data, w) := if s ≠ 0 then w.new_array A s else (0, w)
    ({ data_ := data, capacity_ := s, size_ := 0 }, w)

/-- `buffer(size_type s, size_type c)`, or `none` where it throws `std::invalid_argument`. -/
def ctor_cap (s c : Nat) (w : World) : Option (buffer × World) :=
  if s > c then none
  else if w.use_pool then
    let (mch, w) := w.acquire A c
    some ({ data_ := mch.ptr, capacity_ := mch.capacity, size_ := s }, w)
  else
    let (data, w) := if c ≠ 0 then w.new_array A c else (0, w)
    some ({ data_ := data, capacity_ := c, size_ := s }, w)

/-- `buffer(const void* d, size_type s)`. -/
def ctor_bytes (d s : Nat) (w : World) : buffer × World :=
  if s ≠ 0 then
    if w.use_pool then
      let (mch, w) := w.acquire A s
      ({ data_ := mch.ptr, capacity_ := mch.capacity, size_ := s }, w.memcpy mch.ptr d s)
    else
      let (data, w) := w.new_array A s
      ({ data_ := data, capacity_ := s, size_ := s }, w.memcpy data d s)
  else ({ data_ := 0, size_ := s }, w)

/-- `buffer(const void* d, size_type size, size_type capacity)`. -/
def ctor_bytes_cap (d size capacity : Nat) (w : World) : Option (buffer × World) :=
  if size > capacity then none
  else if capacity ≠ 0 then
    let (data, c, w) :=
      if w.use_pool then
        let (mch, w) := w.acquire A capacity
        (mch.ptr, mch.capacity, w)
      else
        let (data, w) := w.new_array A capacity
        (data, capacity, w)
    some ({ data_ := data, size_ := size, capacity_ := c },
      if size ≠ 0 then w.memcpy data d size else w)
  else some ({ data_ := 0, size_ := size, capacity_ := capacity }, w)

def ctor_own (d size capacity : Nat) (own : Bool) : Option buffer :=
  if size > capacity then none
  else some { data_ := d, size_ := size, capacity_ := capacity, free_ := own }

/-- `buffer(const buffer& x)`. With the pool, a copy of a view keeps the default capacity 0. -/
def copy_ctor (x : buffer) (w : World) : buffer × World :=
  let (data, capacity, w) :=
    if x.capacity_ ≠ 0 then
      if x.free_ then
        let (data, capacity, w) :=
          if w.use_pool then
            let (mch, w) := w.acquire A x.capacity_
            (mch.ptr, mch.capacity, w)
          else
            let (data, w) := w.new_array A x.capacity_
            (data, 0, w)
        (data, capacity, if x.size_ ≠ 0 then w.memcpy data x.data_ x.size_ else w)
      else (x.data_, 0, w)
    else (0, 0, w)
  ({ data_ := data, size_ := x.size_, free_ := x.free_
     capacity_ := if w.use_pool then capacity else x.capacity_ }, w)

/-- `buffer(buffer&& ref)`: the new buffer and what is left of `ref`. -/
def move_ctor (ref : buffer) : buffer × buffer :=
  (ref, { ref with free_ := false })

/-- `operator=(const buffer& x)`, for another buffer `x`. -/
def buffer.copy_assign (b x : buffer) (w : World) : buffer × World :=
  let (b, w) :=
    if x.size_ > b.capacity_ ∨ b.data_ = 0 then
      let w := b.dealloc w
      if x.free_ then
        if w.use_pool then
          let (mch, w) := w.acquire A x.capacity_
          ({ b with data_ := mch.ptr, capacity_ := mch.capacity, free_ := true }, w)
        else
          let (data, w) := w.new_array A x.capacity_
          ({ b with data_ := data, capacity_ := x.capacity_, free_ := true }, w)
      else ({ b with data_ := x.data_, capacity_ := x.capacity_, free_ := false }, w)
    else (b, w)
  ({ b with size_ := x.size_ },
    if x.size_ ≠ 0 ∧ x.free_ = true then w.memcpy b.data_ x.data_ x.size_ else w)

/-- The memory that `operator=(buffer&&)` gives back first. -/
def buffer.drop_own (b : buffer) (w : World) : World :=
  if b.free_ = true ∧ b.data_ ≠ 0 then
    if w.use_pool then w.release { ptr := b.data_, capacity := b.capacity_ }
    else w.delete_array b.data_
  else w

/-- `operator=(buffer&& ref)`, for another buffer `ref`: this buffer, and what is left of `ref`. -/
def buffer.move_assign (b ref : buffer) (w : World) : buffer × buffer × World :=
  (ref, { ref with free_ := false }, b.drop_own w)

/-- `operator=(buffer&& ref)`, where `ref` is the buffer itself. -/
def buffer.move_assign_self (b : buffer) (w : World) : buffer × World :=
  ({ b with free_ := false }, b.drop_own w)

def buffer.swap (b x : buffer) : buffer × buffer :=
  (x, b)

/-- `buffer::detach`: the pointer that the caller gets, and the buffer. -/
def buffer.detach (b : buffer) : Nat × buffer :=
  (b.data_, { b with data_ := 0, size_ := 0, capacity_ := 0 })

/-- `buffer::assign(const void* d, size_type s)`. -/
def buffer.assign (b : buffer) (d s : Nat) (w : World) : buffer × World :=
  let (b, w) :=
    if s > b.capacity_ then
      let w := b.dealloc w
      let (data, _capacity, w) :=
        if w.use_pool then
          let (mch, w) := w.acquire A s
          (mch.ptr, mch.capacity, w)
        else
          let (data, w) := w.new_array A s
          (data, b.capacity_, w)
      -- `capacity_ = s` comes after the branch, so it overwrites the capacity of the chunk
      ({ b with data_ := data, capacity_ := s, free_ := true }, w)
    else (b, w)
  ({ b with size_ := s }, if s ≠ 0 ∧ d ≠ 0 then w.memcpy b.data_ d s else w)

/-- `buffer::assign(void* d, size_type s, size_type c, bool own)`. -/
def buffer.assign_own (b : buffer) (d s c : Nat) (own : Bool) (w : World) : buffer × World :=
  ({ data_ := d, size_ := s, capacity_ := c, free_ := own }, b.dealloc w)

def buffer.attach (b : buffer) (d s : Nat) (w : World) : buffer × World :=
  b.assign_own d s s true w

def buffer.capacity (b : buffer) (c : Nat) (w : World) : Bool × buffer × World :=
  if b.capacity_ ≥ c then (false, b, w)
  else
    let (d, cd, w) :=
      if w.use_pool then
        let (mch, w) := w.acquire A c
        (mch.ptr, mch.capacity, w)
      else
        let (d, w) := w.new_array A c
        (d, 0, w)
    let w := if b.size_ ≠ 0 then w.memcpy d b.data_ b.size_ else w
    let w := b.dealloc w
    (true, { b with data_ := d, capacity_ := if w.use_pool then cd else c, free_ := true }, w)

def buffer.size (b : buffer) (s : Nat) (w : World) : Bool × buffer × World :=
  let (r, b, w) := if b.capacity_ < s then b.capacity A s w else (false, b, w)
  (r, { b with size_ := s }, w)

def buffer.clear (b : buffer) : buffer :=
  { b with size_ := 0 }

def buffer.flush (b : buffer) (bytes : Nat) (w : World) : buffer × World :=
  if bytes = 0 ∨ bytes ≥ b.size_ then (b.clear, w)
  else
    ({ b with size_ := b.size_ - bytes },
      w.memcpy b.data_ (b.data_ + bytes) (b.size_ - bytes))

def buffer.append (b : buffer) (d s : Nat) (w : World) : buffer × World :=
  if s ≠ 0 then
    let ns := b.size_ + s
    let (b, w) :=
      if b.capacity_ < ns then
        let (_, b, w) := b.capacity A ns w
        (b, w)
      else (b, w)
    ({ b with size_ := ns }, w.memcpy (b.data_ + b.size_) d s)
  else (b, w)

end socle.membuf
