-- Packets of length, type and value (common/ltventry.cpp, common/ltventry.hpp).
-- An entry points to its bytes: the root to memory of its own, the entries that
-- `unpack` finds to places in the memory of the root.
import Mathlib.Tactic
import Socle.Lib.Bytes

namespace socle.ltv

open lib.bytes

/-! ## Pointers -/

/-- A pointer: the memory, how many bytes of it belong to the block, and the place in it. -/
structure pointer where
  mem : Nat → UInt8
  size : Nat
  off : Nat := 0

namespace pointer

/-- `p + n`. -/
def add (p : pointer) (n : Nat) : pointer :=
  { p with off := p.off + n }

/-- `p[i]`. -/
def byte (p : pointer) (i : Nat) : UInt8 :=
  p.mem (p.off + i)

/-- The `n` bytes from `p` on. -/
def bytes (p : pointer) (n : Nat) : List UInt8 :=
  slice p.mem p.off n

/-- The bytes `l` stand from `p` on. -/
def Holds (p : pointer) (l : List UInt8) : Prop :=
  lib.bytes.Holds p.mem p.off l

/-- `memcpy(p, l, n)`, with the bytes `l`. -/
def write (p : pointer) (l : List UInt8) : pointer :=
  { p with mem := put p.mem p.off l }

theorem add_add (p : pointer) (m n : Nat) : (p.add m).add n = p.add (m + n) := by
  simp [add, Nat.add_assoc]

theorem add_inj {p : pointer} {m n : Nat} (h : p.add m = p.add n) : m = n := by
  have hoff : p.off + m = p.off + n := congrArg pointer.off h
  omega

end pointer

/-- `new uint8_t[n]`, whose memory has the bytes `fresh`. -/
def new_array (fresh : Nat → UInt8) (n : Nat) : pointer where
  mem := fresh
  size := n

/-! ## Layout -/

def ltv_header_size : Nat := 6

def ltv_get_length (data : pointer) : Nat :=
  be32 (data.byte 0) (data.byte 1) (data.byte 2) (data.byte 3)

def ltv_get_id (data : pointer) : UInt8 :=
  data.byte 4

def ltv_get_type (data : pointer) : UInt8 :=
  data.byte 5

def ltv_get_data_ptr (data : pointer) : pointer :=
  data.add 6

/-- The header that `ltv_set_length`, `ltv_set_id` and `ltv_set_type` write. -/
def header (len : Nat) (id type : UInt8) : List UInt8 :=
  u32 len ++ [id, type]

def typ.cont : UInt8 := 6

/-! ## The entry -/

/-- The fields of `LTVEntry`, with the values that the constructor gives. -/
structure LTVEntry where
  contains_ : List LTVEntry := []
  len_ : Nat := 0
  id_ : UInt8 := 0
  type_ : UInt8 := 0
  data_ : Option pointer := none
  owner_ : Bool := true

namespace LTVEntry

/-- The bytes that `buffer()` and `buflen()` give. -/
def buffer (e : LTVEntry) : List UInt8 :=
  match e.data_ with
  | some p => p.bytes e.len_
  | none => []

def add (e c : LTVEntry) : LTVEntry :=
  { e with contains_ := e.contains_ ++ [c] }

/-- `clear`. The sub-entries stay, and so does the pointer. -/
def clear (e : LTVEntry) : LTVEntry :=
  { e with len_ := 0, id_ := 0, type_ := 0, owner_ := false }

/-- What `set_str`, `set_bytes` and `set_num` share, where `payload` goes behind the header. -/
def set_data (fresh : Nat → UInt8) (i t : UInt8) (payload : List UInt8) (e : LTVEntry) : LTVEntry :=
  let len := (ltv_header_size + payload.length) % 2 ^ 32
  { e.clear with
    id_ := i
    type_ := t
    data_ := some ((new_array fresh (ltv_header_size + payload.length)).write
      (header len i t ++ payload))
    len_ := len
    owner_ := true }

/-- `set_str`, of the characters before the NUL. -/
def set_str (fresh : Nat → UInt8) (i t : UInt8) (str : List UInt8) (e : LTVEntry) : LTVEntry :=
  e.set_data fresh i t str

/-- `set_bytes`, of the characters before the NUL. A longer string than `size` is written past the
end of the block. -/
def set_bytes (fresh : Nat → UInt8) (i t : UInt8) (str : List UInt8) (size : Nat) (e : LTVEntry) :
    Option LTVEntry :=
  if str.length > size then none
  else some (e.set_data fresh i t (str ++ .replicate (size - str.length) 0))

def set_num (fresh : Nat → UInt8) (i t : UInt8) (d : Nat) (e : LTVEntry) : LTVEntry :=
  e.set_data fresh i t (u32 d)

/-- `container`. It does not write the length. -/
def container (fresh : Nat → UInt8) (i : UInt8) (e : LTVEntry) : LTVEntry :=
  { e.clear with
    type_ := typ.cont
    id_ := i
    data_ := some { new_array fresh ltv_header_size with
      mem := put fresh 4 [i, typ.cont] }
    len_ := ltv_header_size
    owner_ := true }

end LTVEntry

/-! ## Packing -/

/-- `ltv_set_length(b->data() + pos, len)`. -/
def set_length (b : List UInt8) (pos len : Nat) : List UInt8 :=
  b.take pos ++ u32 len ++ b.drop (pos + 4)

mutual

/-- `pack(b)`: the entry, what is in the buffer then, and what is returned. -/
def pack_into : LTVEntry → List UInt8 → LTVEntry × List UInt8 × Nat
  | ⟨contains, len, id, type, data, owner⟩, b =>
    let e : LTVEntry := ⟨contains, len, id, type, data, owner⟩
    if type = typ.cont then
      let length_pos := b.length
      let (contains, b, sub_bytes) := pack_all contains (b ++ e.buffer)
      let len := (len + sub_bytes) % 2 ^ 32
      ({ e with contains_ := contains, len_ := len }, set_length b length_pos len, len)
    else if len > 0 then (e, b ++ e.buffer, len)
    else (e, b, 0)

/-- The loop over the sub-entries. -/
def pack_all : List LTVEntry → List UInt8 → List LTVEntry × List UInt8 × Nat
  | [], b => ([], b, 0)
  | c :: rest, b =>
    let (c, b, n) := pack_into c b
    let (rest, b, m) := pack_all rest b
    (c :: rest, b, n + m)

end

/-- `pack()`, of a root. It packs into a buffer to which the memory of the root is attached. For a
root that is no container, this buffer grows, gives the old memory back, and is then filled from
it: `none`. -/
def LTVEntry.pack (fresh : Nat → UInt8) (e : LTVEntry) : Option (LTVEntry × Nat) :=
  if e.type_ = typ.cont then
    let (contains, b, sub_bytes) := pack_all e.contains_ e.buffer
    let len := (e.len_ + sub_bytes) % 2 ^ 32
    let b := set_length b 0 len
    some ({ e with
      contains_ := contains
      len_ := len
      data_ := some ((new_array fresh b.length).write b)
      owner_ := true }, len)
  else if e.len_ > 0 then none
  else some (e, 0)

/-! ## Unpacking -/

/-- The `n` bytes from `p` on are read. -/
structure read where
  p : pointer
  n : Nat

/-- A length as `int`. -/
def int_of (n : Nat) : Int :=
  if n < 2 ^ 31 then n else n - 2 ^ 32

/-- An `int` as `unsigned int`. -/
def unsigned_of (i : Int) : Nat :=
  (i % 2 ^ 32).toNat

theorem unsigned_of_int_of {n : Nat} (h : n < 2 ^ 32) : unsigned_of (int_of n) = n := by
  unfold unsigned_of int_of
  split
  · omega
  · omega

namespace LTVEntry

/-- The entry whose length is known. -/
def look (e : LTVEntry) (buffer : pointer) : LTVEntry :=
  { e with len_ := ltv_get_length buffer }

/-- Where the bytes of the entry are. An owner copies them. -/
def take_data (heap : Nat → UInt8) (e : LTVEntry) (buffer : pointer) : pointer :=
  if e.owner_ then
    (new_array heap (ltv_get_length buffer)).write (buffer.bytes (ltv_get_length buffer))
  else buffer

/-- The entry whose bytes are all there. -/
def take (heap : Nat → UInt8) (e : LTVEntry) (buffer : pointer) : LTVEntry :=
  { e with
    len_ := ltv_get_length buffer
    id_ := ltv_get_id buffer
    type_ := ltv_get_type buffer
    data_ := some (e.take_data heap buffer) }

def take_reads (e : LTVEntry) (buffer : pointer) : List read :=
  [⟨buffer, 4⟩, ⟨buffer.add 4, 2⟩] ++
    if e.owner_ then [⟨buffer, ltv_get_length buffer⟩] else []

/-- `contains().push_back`, for each of `subs`. -/
def push_all (e : LTVEntry) (subs : List LTVEntry) : LTVEntry :=
  { e with contains_ := e.contains_ ++ subs }

theorem push_all_nil (e : LTVEntry) : e.push_all [] = e := by
  cases e
  simp [push_all]

end LTVEntry

mutual

/-- `unpack`: the entry, what is returned, and what was read. It gives `none` when `fuel` is too
small for the calls and the loop turns. The memory behind a new block has the bytes `heap`. -/
def unpack (heap : Nat → UInt8) :
    Nat → LTVEntry → pointer → Nat → Option (LTVEntry × Int × List read)
  | 0, _, _, _ => none
  | fuel + 1, e, buffer, buflen =>
    if buflen < 4 then some (e, -1, [])
    else
      let len := ltv_get_length buffer
      -- underflow: more data are expected
      if buflen < len then some (e.look buffer, 0, [⟨buffer, 4⟩])
      else
        let e' := e.take heap buffer
        if e'.type_ = typ.cont ∧ len > ltv_header_size then
          (dig heap fuel (ltv_get_data_ptr (e.take_data heap buffer)) (len - ltv_header_size) 0).map
            fun (subs, reads) => (e'.push_all subs, int_of len, e.take_reads buffer ++ reads)
        else some (e', int_of len, e.take_reads buffer)

/-- The loop over the sub-entries. Each one gets the length of the whole payload. -/
def dig (heap : Nat → UInt8) :
    Nat → pointer → Nat → Nat → Option (List LTVEntry × List read)
  | 0, _, _, _ => none
  | fuel + 1, data, payload_len, data_index =>
    (unpack heap fuel { owner_ := false } (data.add data_index) payload_len).bind
      fun (l, red, reads) =>
        let sub_red := unsigned_of red
        if sub_red > 0 then
          let data_index := (data_index + sub_red) % 2 ^ 32
          if data_index ≥ payload_len then some ([l], reads)
          else
            (dig heap fuel data payload_len data_index).map
              fun (rest, more) => (l :: rest, reads ++ more)
        else some ([], reads)

end

theorem unpack_succ (heap : Nat → UInt8) (fuel : Nat) (e : LTVEntry) (p : pointer) (buflen : Nat) :
    unpack heap (fuel + 1) e p buflen =
      if buflen < 4 then some (e, -1, [])
      else if buflen < ltv_get_length p then some (e.look p, 0, [⟨p, 4⟩])
      else if (e.take heap p).type_ = typ.cont ∧ ltv_get_length p > ltv_header_size then
        (dig heap fuel (ltv_get_data_ptr (e.take_data heap p))
          (ltv_get_length p - ltv_header_size) 0).map fun r =>
            ((e.take heap p).push_all r.1, int_of (ltv_get_length p), e.take_reads p ++ r.2)
      else some (e.take heap p, int_of (ltv_get_length p), e.take_reads p) := by
  rw [unpack]

theorem dig_succ (heap : Nat → UInt8) (fuel : Nat) (data : pointer) (payload_len idx : Nat) :
    dig heap (fuel + 1) data payload_len idx =
      (unpack heap fuel { owner_ := false } (data.add idx) payload_len).bind fun r =>
        if unsigned_of r.2.1 > 0 then
          if (idx + unsigned_of r.2.1) % 2 ^ 32 ≥ payload_len then some ([r.1], r.2.2)
          else
            (dig heap fuel data payload_len ((idx + unsigned_of r.2.1) % 2 ^ 32)).map fun more =>
              (r.1 :: more.1, r.2.2 ++ more.2)
        else some ([], r.2.2) := by
  rw [dig]

/-- A turn of the loop that adds an entry. -/
theorem dig_adds {heap : Nat → UInt8} {fuel n idx payload_len : Nat} {data : pointer}
    {u : LTVEntry} {reads : List read}
    (h : unpack heap fuel { owner_ := false } (data.add idx) payload_len =
      some (u, int_of n, reads))
    (hpos : 0 < n) (hidx : idx + n < 2 ^ 32) :
    dig heap (fuel + 1) data payload_len idx =
      if idx + n ≥ payload_len then some ([u], reads)
      else (dig heap fuel data payload_len (idx + n)).map fun more =>
        (u :: more.1, reads ++ more.2) := by
  have hred : unsigned_of (int_of n) = n := unsigned_of_int_of (by omega)
  rw [dig_succ, h, Option.bind_some, hred, if_pos hpos, Nat.mod_eq_of_lt hidx]

end socle.ltv
