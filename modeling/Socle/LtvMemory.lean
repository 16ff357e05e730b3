-- The memory of the entries (common/ltventry.cpp). An entry points to its bytes,
-- and owns them when its flag says so. `pack` works in a buffer that takes the
-- memory of the root, and the root gets back what the buffer has at the end.
import Socle.Buffer
import Socle.LtvEntry

namespace socle.pairing

open mempool membuf lib.bytes

def write (w : World) (p : Nat) (l : List UInt8) : World :=
  { w with mem := put w.mem p l }

/-! ## The entry -/

/-- The fields of `LTVEntry`, with the values that the constructor gives. `data_` is an address. -/
structure LTVEntry where
  contains_ : List LTVEntry := []
  len_ : Nat := 0
  id_ : UInt8 := 0
  type_ : UInt8 := 0
  data_ : Nat := 0
  owner_ : Bool := true

variable (A : Allocator)

namespace LTVEntry

def delete_data (e : LTVEntry) (w : World) : World :=
  if e.data_ ≠ 0 ∧ e.owner_ = true then w.delete_array e.data_ else w

/-- `clear`. The sub-entries stay, and so does the pointer. -/
def clear (e : LTVEntry) (w : World) : LTVEntry × World :=
  ({ e with len_ := 0, id_ := 0, type_ := 0, owner_ := false }, e.delete_data w)

/-- What `set_str`, `set_bytes` and `set_num` share: a new block with a header, room for `data_len`
bytes, and the bytes `l` behind the header. -/
def set_data (i t : UInt8) (data_len : Nat) (l : List UInt8) (e : LTVEntry) (w : World) :
    LTVEntry × World :=
  let (e, w) := e.clear w
  let (data, w) := w.new_array A (data_len + ltv.ltv_header_size)
  let len := (ltv.ltv_header_size + data_len) % 2 ^ 32
  ({ e with id_ := i, type_ := t, data_ := data, owner_ := true, len_ := len },
    write w data (ltv.header len i t ++ l))

/-- `set_str`, of the characters before the NUL. -/
def set_str (i t : UInt8) (str : List UInt8) (e : LTVEntry) (w : World) : LTVEntry × World :=
  e.set_data A i t str.length str w

/-- `set_bytes`, of the characters before the NUL. All of them are written, whatever `size` is. -/
def set_bytes (i t : UInt8) (str : List UInt8) (size : Nat) (e : LTVEntry) (w : World) :
    LTVEntry × World :=
  e.set_data A i t size (str ++ .replicate (size - str.length) 0) w

/-- `set_num`, and `set_ip` of an address that is read as the number `d`. -/
def set_num (i t : UInt8) (d : Nat) (e : LTVEntry) (w : World) : LTVEntry × World :=
  e.set_data A i t 4 (u32 d) w

/-- `container`. It does not write the length. -/
def container (i : UInt8) (e : LTVEntry) (w : World) : LTVEntry × World :=
  let (e, w) := e.clear w
  let (data, w) := w.new_array A ltv.ltv_header_size
  ({ e with type_ := ltv.typ.cont, id_ := i, data_ := data, len_ := ltv.ltv_header_size,
            owner_ := true },
    write w (data + 4) [i, ltv.typ.cont])

def add (e c : LTVEntry) : LTVEntry :=
  { e with contains_ := e.contains_ ++ [c] }

end LTVEntry

mutual

def destroy : LTVEntry → World → World
  | ⟨contains, len, id, type, data, owner⟩, w =>
    destroy_all contains (LTVEntry.delete_data ⟨contains, len, id, type, data, owner⟩ w)

def destroy_all : List LTVEntry → World → World
  | [], w => w
  | c :: rest, w => destroy_all rest (destroy c w)

end

/-! ## Packing -/

mutual

/-- `pack(b)`: the entry, the buffer, and what is returned. -/
def pack_into : LTVEntry → buffer → World → LTVEntry × buffer × World × Nat
  | ⟨contains, len, id, type, data, owner⟩, b, w =>
    if type = ltv.typ.cont then
      let length_pos := b.size_
      let (b, w) := b.append A data len w
      let (contains, b, w, sub_bytes) := pack_all contains b w
      let len := (len + sub_bytes) % 2 ^ 32
      (⟨contains, len, id, type, data, owner⟩, b, write w (b.data_ + length_pos) (u32 len), len)
    else if len > 0 then
      let (b, w) := b.append A data len w
      (⟨contains, len, id, type, data, owner⟩, b, w, len)
    else (⟨contains, len, id, type, data, owner⟩, b, w, 0)

def pack_all : List LTVEntry → buffer → World → List LTVEntry × buffer × World × Nat
  | [], b, w => ([], b, w, 0)
  | c :: rest, b, w =>
    let (c, b, w, n) := pack_into c b w
    let (rest, b, w, m) := pack_all rest b w
    (c :: rest, b, w, n + m)

end

namespace LTVEntry

/-- The buffer that `pack()` works in: a new one, to which the memory of the root is attached. -/
def work_buffer (e : LTVEntry) (w : World) : buffer × World :=
  let (b, w) := ctor A 0 w
  let (b, w) := b.attach e.data_ e.len_ w
  let (_, b, w) := b.size A e.len_ w
  (b, w)

/-- The end of `pack()`: the root takes the memory of the buffer, which is detached and deleted. -/
def take_back (e : LTVEntry) (b : buffer) (w : World) : LTVEntry × World :=
  ({ e with data_ := b.data_, owner_ := true }, (b.detach.2.release w).2)

/-- `pack()`, of a root: the entry, and what is returned. -/
def pack (e : LTVEntry) (w : World) : LTVEntry × World × Nat :=
  let (b, w) := e.work_buffer A w
  if e.type_ = ltv.typ.cont then
    let (contains, b, w, sub_bytes) := pack_all A e.contains_ b w
    let len := (e.len_ + sub_bytes) % 2 ^ 32
    let (e, w) := { e with contains_ := contains, len_ := len }.take_back b
      (write w b.data_ (u32 len))
    (e, w, len)
  else if e.len_ > 0 then
    let (b, w) := b.append A e.data_ e.len_ w
    let (e, w) := e.take_back b w
    (e, w, e.len_)
  else (e, (b.release w).2, 0)

end LTVEntry

/-! ## Unpacking -/

mutual

/-- An entry that `unpack` finds, at the address where it found it. -/
def place : ltv.LTVEntry → LTVEntry
  | ⟨contains, len, id, type, data, owner⟩ =>
    { contains_ := place_all contains
      len_ := len
      id_ := id
      type_ := type
      data_ := (data.map ltv.pointer.off).getD 0
      owner_ := owner }

def place_all : List ltv.LTVEntry → List LTVEntry
  | [] => []
  | c :: rest => place c :: place_all rest

end

def pointer_to (w : World) (p n : Nat) : ltv.pointer where
  mem := w.mem
  size := n
  off := p

namespace LTVEntry

/-- Where the bytes of the entry are. An owner copies them to a new block. -/
def take_data (e : LTVEntry) (buffer len : Nat) (w : World) : Nat × World :=
  if e.owner_ then
    let (data, w) := w.new_array A len
    (data, w.memcpy data buffer len)
  else (buffer, w)

def take (e : LTVEntry) (buffer buflen : Nat) (w : World) : LTVEntry × World :=
  let p := pointer_to w buffer buflen
  let len := ltv.ltv_get_length p
  let (data, w) := e.take_data A buffer len w
  ({ e with len_ := len, id_ := ltv.ltv_get_id p, type_ := ltv.ltv_get_type p, data_ := data }, w)

/-- `unpack`: the entry, and what is returned. The entries that it finds own nothing. It gives
`none` when `fuel` is too small for the loop over them. -/
def unpack (fuel : Nat) (e : LTVEntry) (buffer buflen : Nat) (w : World) :
    Option (LTVEntry × World × Int) :=
  let len := ltv.ltv_get_length (pointer_to w buffer buflen)
  if buflen < 4 then some (e, w, -1)
  -- underflow: more data are expected
  else if buflen < len then some ({ e with len_ := len }, w, 0)
  else
    let (e, w) := e.take A buffer buflen w
    if e.type_ = ltv.typ.cont ∧ len > ltv.ltv_header_size then
      (ltv.dig w.mem fuel (ltv.ltv_get_data_ptr (pointer_to w e.data_ len))
        (len - ltv.ltv_header_size) 0).map fun (subs, _) =>
          ({ e with contains_ := e.contains_ ++ place_all subs }, w, ltv.int_of len)
    else some (e, w, ltv.int_of len)

end LTVEntry

/-! ## A place in a tree -/

namespace LTVEntry

/-- The entry that is reached from the root by the numbers of `path`. -/
def find : List Nat → LTVEntry → Option LTVEntry
  | [], e => some e
  | k :: path, e => e.contains_[k]?.bind (find path)

/-- The tree in which this entry is `c`. -/
def replace (c : LTVEntry) : List Nat → LTVEntry → LTVEntry
  | [], _ => c
  | k :: path, e => { e with contains_ := e.contains_.modify k (replace c path) }

end LTVEntry

end socle.pairing
