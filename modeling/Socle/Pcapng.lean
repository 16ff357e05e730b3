-- The blocks of a pcapng capture (pcapapi.hpp and pcapapi.cpp): section header,
-- interface, and enhanced packet block, as `size` and `append` compute them. The
-- numbers are in the order of the machine, which is little-endian.
import Mathlib.Tactic
import Socle.Lib.Wire

namespace socle.pcapng

open lib.wire

/-! ## Fields -/

def u16 (n : UInt16) : List UInt8 := le16 n.toNat

def u32 (n : UInt32) : List UInt8 := le32 n.toNat

def u64 (n : UInt64) : List UInt8 := le32 n.toNat ++ le32 (n.toNat / 4294967296)

def padding_sz32 (s : Nat) : Nat :=
  let padding_sz := 4 - (s + 4) % 4
  if padding_sz = 4 then 0 else padding_sz

/-- What `padding::append` appends, and the loop of the packet block. -/
def padding (n : Nat) : List UInt8 :=
  List.replicate n 0xCC

/-! ## Options -/

/-- `pcapng_options::entry`. A null `data` is `none`. -/
structure entry where
  code : UInt16
  len : UInt16 := 0
  data : Option (List UInt8)
deriving DecidableEq

def footer : UInt32 := 0

def code_id.Comment : UInt16 := 1

namespace entry

def size (e : entry) : Nat :=
  match e.data with
  | none => 0
  | some data =>
    if data.length = 0 then 0
    -- code, len, data, padding, and the footer
    else 2 + 2 + data.length + padding_sz32 data.length + 4

/-- `entry::append`: how many bytes it appended, the buffer, and the entry. -/
def append (e : entry) (out : List UInt8) : Nat × List UInt8 × entry :=
  match e.data with
  | none => (0, out, e)
  | some data =>
    if e.size = 0 then (0, out, e)
    else
      let e := { e with len := UInt16.ofNat data.length }
      let next := out ++ u16 e.code ++ u16 e.len ++ data ++ padding (padding_sz32 data.length)
      (next.length - out.length, next, e)

end entry

def options.size (entries : List entry) : Nat :=
  entries.foldl (fun sz e => sz + e.size) 0

/-- `pcapng_options::append`. The loop works on copies of the entries. -/
def options.append (entries : List entry) (out : List UInt8) : Nat × List UInt8 :=
  let (wrt, out) := entries.foldl
    (fun (wrt, out) e =>
      if e.size > 0 then (wrt + (e.append out).1, (e.append out).2.1)
      else (wrt, out)) (0, out)
  if wrt > 0 then (wrt, out ++ u32 footer) else (wrt, out)

/-! ## Blocks -/

/-- `pcapng_shb`, with the fields that can change. -/
structure pcapng_shb where
  total_length : UInt32 := 0
  options : Option (List UInt8) := none

namespace pcapng_shb

def type : UInt32 := 0x0A0D0D0A
def magic : UInt32 := 0x1A2B3C4D
def version_maj : UInt16 := 1
def version_min : UInt16 := 0
def section_length : UInt64 := 0xFFFFFFFFFFFFFFFF

def size (b : pcapng_shb) : Nat :=
  let fixed_sz := 4 + 4 + 4 + 2 + 2 + 8 + 4
  let sz := match b.options with
    | some options => options.length
    | none => 0
  sz + fixed_sz

/-- `append`: how many bytes it appended, the buffer, and the block. -/
def append (b : pcapng_shb) (out : List UInt8) : Nat × List UInt8 × pcapng_shb :=
  let b := { b with total_length := UInt32.ofNat b.size }
  let next := out ++ u32 type ++ u32 b.total_length ++ u32 magic ++ u16 version_maj ++
    u16 version_min ++ u64 section_length
  let next := match b.options with
    | some options => next ++ options
    | none => next
  let next := next ++ u32 b.total_length
  (next.length - out.length, next, b)

end pcapng_shb

structure pcapng_ifb where
  total_length : UInt32 := 0
  link_type : UInt16 := 113
  snaplen : UInt32 := 20000
  options : Option (List UInt8) := none

namespace pcapng_ifb

def type : UInt32 := 1
def _reserved1 : UInt16 := 0

def size (b : pcapng_ifb) : Nat :=
  let fixed_sz := 4 + 4 + 2 + 2 + 4 + 4
  let sz := match b.options with
    | some options => options.length
    | none => 0
  sz + fixed_sz

def append (b : pcapng_ifb) (out : List UInt8) : Nat × List UInt8 × pcapng_ifb :=
  let b := { b with total_length := UInt32.ofNat b.size }
  let next := out ++ u32 type ++ u32 b.total_length ++ u16 b.link_type ++ u16 _reserved1 ++
    u32 b.snaplen
  let next := match b.options with
    | some options => next ++ options
    | none => next
  let next := next ++ u32 b.total_length
  (next.length - out.length, next, b)

end pcapng_ifb

structure pcapng_epb where
  total_length : UInt32 := 0
  iface_id : UInt32 := 0
  timestamp_high : UInt32 := 0
  timestamp_low : UInt32 := 0
  captured_len : UInt32 := 0
  original_len : UInt32 := 0
  packet_data : Option (List UInt8) := none
  options : Option (List entry) := none

namespace pcapng_epb

def type : UInt32 := 6

def fixed_sz : Nat := 4 + 4 + 4 + 4 + 4 + 4 + 4 + 4

def size (b : pcapng_epb) : Nat :=
  -- packed data are padded to 32bits
  let sz := match b.packet_data with
    | some packet_data => padding_sz32 packet_data.length + packet_data.length
    | none => 0
  let sz := match b.options with
    | some entries => sz + options.size entries
    | none => sz
  sz + fixed_sz

/-- The timestamp, when it is not set yet, is `now`, in seconds and microseconds. -/
def timestamp (now : UInt32 × UInt32) (b : pcapng_epb) : pcapng_epb :=
  if b.timestamp_high = 0 ∧ b.timestamp_low = 0 then
    { b with timestamp_high := now.1, timestamp_low := now.2 }
  else b

def append (now : UInt32 × UInt32) (b : pcapng_epb) (out : List UInt8) :
    Nat × List UInt8 × pcapng_epb :=
  let b := { b with total_length := UInt32.ofNat b.size }
  let next := out ++ u32 type ++ u32 b.total_length ++ u32 b.iface_id
  let b := b.timestamp now
  let next := next ++ u32 b.timestamp_high ++ u32 b.timestamp_low
  let b := match b.packet_data with
    | some packet_data => { b with captured_len := UInt32.ofNat packet_data.length }
    | none => b
  let next := next ++ u32 b.captured_len
  let b := { b with original_len := b.captured_len }
  let next := next ++ u32 b.original_len
  let next := match b.packet_data with
    | some packet_data => next ++ packet_data ++ padding (padding_sz32 packet_data.length)
    | none => next
  let next := match b.options with
    | some entries => (options.append entries next).2
    | none => next
  let next := next ++ u32 b.total_length
  (next.length - out.length, next, b)

def comment (s : List UInt8) (b : pcapng_epb) : pcapng_epb :=
  { b with options := some (b.options.getD [] ++ [{ code := code_id.Comment, data := some s }]) }

end pcapng_epb

/-! ## What is appended -/

theorem padding_sz32_eq (s : Nat) : padding_sz32 s = (4 - s % 4) % 4 := by
  unfold padding_sz32
  dsimp only
  split <;> omega

@[simp] theorem padding_length (n : Nat) : (padding n).length = n :=
  List.length_replicate

@[simp] theorem u16_length (n : UInt16) : (u16 n).length = 2 := rfl

@[simp] theorem u32_length (n : UInt32) : (u32 n).length = 4 := rfl

@[simp] theorem u64_length (n : UInt64) : (u64 n).length = 8 := rfl

/-- The data of an entry. A null buffer has no data. -/
def entry.bytes (e : entry) : List UInt8 :=
  e.data.getD []

/-- An entry without data is not written. -/
def entry.written (e : entry) : Bool :=
  !e.bytes.isEmpty

/-- The bytes of an entry that is written. -/
def entry.encoding (e : entry) : List UInt8 :=
  u16 e.code ++ u16 (UInt16.ofNat e.bytes.length) ++ e.bytes ++
    padding (padding_sz32 e.bytes.length)

theorem entry.size_eq (e : entry) :
    e.size = if e.written then e.encoding.length + 4 else 0 := by
  unfold entry.size entry.written entry.encoding entry.bytes
  cases e.data with
  | none => rfl
  | some data =>
    cases data with
    | nil => rfl
    | cons b rest =>
      simp
      omega

theorem entry.append_eq (e : entry) (out : List UInt8) (h : e.written = true) :
    e.append out =
      (e.encoding.length, out ++ e.encoding, { e with len := UInt16.ofNat e.bytes.length }) := by
  have hsize : e.size ≠ 0 := by
    rw [e.size_eq, if_pos h]
    omega
  unfold entry.append
  cases hd : e.data with
  | none => simp [entry.written, entry.bytes, hd] at h
  | some data =>
    simp only [if_neg hsize]
    unfold entry.encoding entry.bytes
    simp only [hd, Option.getD_some, List.append_assoc, List.length_append, Prod.mk.injEq, and_true]
    omega

/-- The encodings of the entries that are written. -/
def encodings (entries : List entry) : List UInt8 :=
  (entries.filter entry.written).flatMap entry.encoding

theorem options.size_eq (entries : List entry) :
    options.size entries =
      (encodings entries).length + 4 * (entries.filter entry.written).length := by
  have hfold : ∀ start, entries.foldl (fun sz e => sz + e.size) start =
      start + ((encodings entries).length + 4 * (entries.filter entry.written).length) := by
    unfold encodings
    induction entries with
    | nil => exact fun _ => rfl
    | cons e rest ih =>
      intro start
      rw [List.foldl_cons, ih, e.size_eq]
      cases hw : e.written with
      | true =>
        simp only [List.filter_cons, hw, if_true, List.flatMap_cons, List.length_append,
          List.length_cons]
        omega
      | false => simp [hw]
  unfold options.size
  rw [hfold, Nat.zero_add]

theorem encoding_pos (e : entry) : 0 < e.encoding.length := by
  simp [entry.encoding]

/-- What the options append: the encodings, and one footer when there is one. -/
def tail (entries : List entry) : List UInt8 :=
  encodings entries ++ if entries.filter entry.written = [] then [] else u32 footer

theorem options.append_eq (entries : List entry) (out : List UInt8) :
    options.append entries out = ((encodings entries).length, out ++ tail entries) := by
  have hfold : ∀ wrt (out : List UInt8),
      entries.foldl (fun (wrt, out) e =>
        if e.size > 0 then (wrt + (e.append out).1, (e.append out).2.1) else (wrt, out)) (wrt, out) =
      (wrt + (encodings entries).length, out ++ encodings entries) := by
    unfold encodings
    induction entries with
    | nil => exact fun _ _ => by simp
    | cons e rest ih =>
      intro wrt out
      rw [List.foldl_cons]
      cases hw : e.written with
      | true =>
        have hsize : e.size > 0 := by
          rw [e.size_eq, if_pos hw]
          omega
        simp only [if_pos hsize, e.append_eq out hw]
        rw [ih]
        simp only [List.filter_cons, hw, if_true, List.flatMap_cons, List.length_append,
          List.append_assoc, Nat.add_assoc]
      | false =>
        have hsize : ¬ e.size > 0 := by
          rw [e.size_eq, hw]
          simp
        simp only [if_neg hsize]
        rw [ih]
        simp [hw]
  have hzero : (encodings entries).length = 0 ↔ entries.filter entry.written = [] := by
    unfold encodings
    cases hf : entries.filter entry.written with
    | nil => simp
    | cons e rest =>
      have hpos := encoding_pos e
      simp only [List.flatMap_cons, List.length_append, reduceCtorEq, iff_false]
      omega
  unfold options.append tail
  simp only [hfold, Nat.zero_add]
  by_cases hnone : entries.filter entry.written = []
  · have hlen := hzero.mpr hnone
    rw [if_pos hnone, hlen, if_neg (by omega), List.append_nil]
  · have hlen : (encodings entries).length > 0 := by
      have := mt hzero.mp hnone
      omega
    rw [if_neg hnone, if_pos hlen, List.append_assoc]

end socle.pcapng
