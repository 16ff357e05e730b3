-- A table in shared memory (common/shmtable.hpp). Each process has its rows
-- and its copy of the header. A save writes all rows and then the header, and
-- a load reads them when the version in the memory is new to the process.
import Mathlib.Tactic
import Socle.Lib.Run

namespace socle.shm

open lib.run

/-! ## Data -/

structure shared_table_header where
  version : UInt32 := 0
  entries : UInt32 := 0
  row_size : UInt32 := 0
deriving DecidableEq, Repr

def sizeof_header : Nat := 12

/-- The mapped memory: the header, and the bytes behind it. `attach` takes the size as an int. -/
structure shared_buffer where
  header : shared_table_header := {}
  records : List UInt8
  small : sizeof_header + records.length < 2 ^ 31

def shared_buffer.capacity (m : shared_buffer) : Nat :=
  sizeof_header + m.records.length

/-- `RowType`. `load` reads a row and tells how many bytes it has, and is `none` when it cannot tell
from the bytes that are mapped. -/
structure row_type (Row : Type) where
  size_of : UInt32
  record_size : UInt32
  buf : Row → List UInt8
  load : List UInt8 → Option (Row × Nat)
  load_buf : ∀ r rest, load (buf r ++ rest) = some (r, (buf r).length)

/-- A `shared_table`, or with `get_row_key` a `shared_map`. -/
structure table_class (Key Row : Type) where
  row : row_type Row
  get_row_key : Option (Row → Key) := none

/-- `shared_table` in one process. A `shared_table` does not use `map_entries_`. -/
structure shared_table (Key Row : Type) where
  entries_ : List Row := []
  map_entries_ : Key → Option Row := fun _ => none
  seen_version_ : UInt32 := 0
  cur_data_header : shared_table_header := {}

/-- `static_cast<int>`. -/
def as_int (v : UInt32) : Int :=
  if v.toNat < 2 ^ 31 then v.toNat else v.toNat - 2 ^ 32

variable {Key Row : Type} [DecidableEq Key]

namespace shared_table

def header_version (p : shared_table Key Row) : UInt32 := p.cur_data_header.version

/-- `shared_table()`. -/
def new (t : table_class Key Row) : shared_table Key Row :=
  { cur_data_header := { row_size := t.row.size_of } }

/-! ## Load -/

def read_header (t : table_class Key Row) (m : shared_buffer) (p : shared_table Key Row) :
    Int × shared_table Key Row :=
  let p := { p with cur_data_header := m.header }
  if t.row.size_of ≠ p.cur_data_header.row_size then (-1, p)
  else (as_int m.header.version, p)

def on_new_version (t : table_class Key Row) (p : shared_table Key Row) :
    Bool × shared_table Key Row :=
  match t.get_row_key with
  | none => (true, p)
  | some _ => (true, { p with map_entries_ := fun _ => none })

def on_new_entry (t : table_class Key Row) (r : Row) (p : shared_table Key Row) :
    Bool × shared_table Key Row :=
  match t.get_row_key with
  | none => (true, p)
  | some key => (true, { p with map_entries_ := Function.update p.map_entries_ (key r) (some r) })

/-- The loop of `load` over `n` records. -/
def load_rows (t : table_class Key Row) :
    Nat → List UInt8 → shared_table Key Row → Option (shared_table Key Row)
  | 0, _, p => some p
  | n + 1, records, p =>
    match t.row.load records with
    | none => none
    | some (rec, sz) =>
      let r := p.on_new_entry t rec
      load_rows t n (records.drop sz)
        (if r.1 then { r.2 with entries_ := r.2.entries_ ++ [rec] } else r.2)

/-- The version in the memory is new. -/
def new_version (p : shared_table Key Row) : Bool :=
  p.seen_version_ < p.header_version || (p.header_version == 0 && p.seen_version_ > 0)

def load (t : table_class Key Row) (m : shared_buffer) (p : shared_table Key Row) :
    Option (Int × shared_table Key Row) :=
  let rh := p.read_header t m
  if rh.1 < 0 then some rh
  else
    let p := rh.2
    if p.new_version then
      let v := p.on_new_version t
      let p := if v.1 then { v.2 with entries_ := [] } else v.2
      let p := { p with seen_version_ := p.header_version }
      (load_rows t p.cur_data_header.entries.toNat m.records p).map fun p => (p.entries_.length, p)
    else some (-1, p)

end shared_table

/-! ## Save -/

theorem put_length {records bytes : List UInt8} {pos : Nat}
    (h : pos + bytes.length ≤ records.length) :
    (records.take pos ++ bytes ++ records.drop (pos + bytes.length)).length = records.length := by
  simp only [List.length_append, List.length_take, List.length_drop]
  omega

/-- `memcpy` to the records, which is `none` when it goes past the capacity. -/
def shared_buffer.put (m : shared_buffer) (pos : Nat) (bytes : List UInt8) : Option shared_buffer :=
  if h : pos + bytes.length ≤ m.records.length then
    some { m with
      records := m.records.take pos ++ bytes ++ m.records.drop (pos + bytes.length)
      small := (put_length h).symm ▸ m.small }
  else none

namespace shared_table

/-- `on_write_entry` of `shared_map` looks for the key of the row. -/
def is_kept (t : table_class Key Row) (p : shared_table Key Row) (r : Row) : Bool :=
  match t.get_row_key with
  | none => true
  | some key => (p.map_entries_ (key r)).isSome

/-- `on_write_entry`: the number of bytes that were written. -/
def on_write_entry (t : table_class Key Row) (p : shared_table Key Row) (m : shared_buffer)
    (pos : Nat) (r : Row) : Option (Nat × shared_buffer) :=
  if p.is_kept t r then (m.put pos (t.row.buf r)).map fun m => ((t.row.buf r).length, m)
  else some (0, m)

/-- The loop of `save`: where it ends, and how many rows it wrote. -/
def save_rows (t : table_class Key Row) (p : shared_table Key Row) :
    List Row → Nat → Nat → shared_buffer → Option (Nat × Nat × shared_buffer)
  | [], curpos, n_written, m => some (curpos, n_written, m)
  | r :: rest, curpos, n_written, m =>
    match p.on_write_entry t m curpos r with
    | none => none
    | some (s, m) =>
      if s > 0 then save_rows t p rest (curpos + s) (n_written + 1) m
      else save_rows t p rest curpos n_written m

def write_header (t : table_class Key Row) (increase_version : Bool) (n_entries : Int)
    (p : shared_table Key Row) (m : shared_buffer) : shared_table Key Row × shared_buffer :=
  let p := if increase_version then
      { p with
        seen_version_ := p.seen_version_ + 1
        cur_data_header.version := p.cur_data_header.version + 1 }
    else p
  let p := { p with cur_data_header.entries := UInt32.ofNat p.entries_.length }
  let p := if n_entries ≥ 0 then
      { p with cur_data_header.entries := UInt32.ofNat n_entries.toNat }
    else p
  let p := { p with cur_data_header.row_size := t.row.record_size }
  (p, { m with header := p.cur_data_header })

/-- `save`: the number of bytes up to the end of the rows. -/
def save (t : table_class Key Row) (increase_version : Bool) (p : shared_table Key Row)
    (m : shared_buffer) : Option (Int × shared_table Key Row × shared_buffer) :=
  (p.save_rows t p.entries_ 0 0 m).map fun r =>
    (sizeof_header + r.1, p.write_header t increase_version r.2.1 r.2.2)

/-- The rows that `save` writes. -/
def kept (t : table_class Key Row) (p : shared_table Key Row) : List Row :=
  p.entries_.filter (p.is_kept t)

end shared_table

/-! ## Processes -/

/-- The memory and all processes. The rest is not in the code: it records the last save, and for
which processes it is an update that they have not loaded. -/
structure shared_system (Key Row : Type) where
  memory : shared_buffer
  procs : Nat → shared_table Key Row
  saved : List Row := []
  saved_version : UInt32 := 0
  due : Nat → Bool := fun _ => false
  overrun : Bool := false

inductive table_call (Key Row : Type)
  | load (i : Nat)
  | save (i : Nat)
  | edit (i : Nat) (entries : List Row) (map_entries : Key → Option Row)

/-- The bytes of rows. -/
def bytes_of (t : table_class Key Row) (rows : List Row) : List UInt8 :=
  rows.flatMap t.row.buf

/-- `load`, `save(true)`, and changes of the rows by their owner. Rows that do not fit are not
saved. -/
def table_step (t : table_class Key Row) (w : shared_system Key Row) (a : table_call Key Row) :
    Option (shared_system Key Row) :=
  match a with
  | .load i => ((w.procs i).load t w.memory).map fun r => { w with
      procs := Function.update w.procs i r.2
      due := Function.update w.due i false }
  | .save i =>
    let p := w.procs i
    if sizeof_header + (bytes_of t (p.kept t)).length ≤ w.memory.capacity then
      match p.save t true w.memory with
      | none => some { w with overrun := true }
      | some (_, p', m) => some { w with
          memory := m
          procs := Function.update w.procs i p'
          saved := p.kept t
          saved_version := p'.header_version
          due := fun j => j != i }
    else none
  | .edit i entries map_entries => some { w with
      procs := Function.update w.procs i
        { w.procs i with entries_ := entries, map_entries_ := map_entries } }

/-- New processes, at a memory of zeros. -/
def shared_system.new (t : table_class Key Row) (size : Nat) (h : sizeof_header + size < 2 ^ 31) :
    shared_system Key Row :=
  { memory := { records := List.replicate size 0, small := by rwa [List.length_replicate] }
    procs := fun _ => shared_table.new t }

/-! ## The law -/

/-- No save goes past the capacity, and each process that loads after a save of another one gets its
rows, in their order, and its version. -/
structure Seen (t : table_class Key Row) (w : shared_system Key Row) : Prop where
  inside : w.overrun = false
  loads : ∀ i, w.due i = true → ∃ p : shared_table Key Row,
    (w.procs i).load t w.memory = some ((w.saved.length : Int), p) ∧
    p.entries_ = w.saved ∧ p.header_version = w.saved_version ∧
    p.seen_version_ = w.saved_version

/-- The process knows the version in the memory, the next version is an int, the size of a record is
the size of a row, and no row that is written is without bytes. -/
structure Current (t : table_class Key Row) (w : shared_system Key Row) (i : Nat) : Prop where
  version : (w.procs i).header_version = w.memory.header.version
  small : w.memory.header.version.toNat + 1 < 2 ^ 31
  row_size : t.row.record_size = t.row.size_of
  rows : ∀ r ∈ (w.procs i).kept t, t.row.buf r ≠ []

/-- Saves are by processes that are up to date. -/
def SavesCurrent (t : table_class Key Row) (w : shared_system Key Row) :
    table_call Key Row → Prop
  | .save i => Current t w i
  | _ => True

instance decidableCurrent (t : table_class Key Row) (w : shared_system Key Row) (i : Nat) :
    Decidable (Current t w i) :=
  decidable_of_iff
    ((w.procs i).header_version = w.memory.header.version ∧
      w.memory.header.version.toNat + 1 < 2 ^ 31 ∧ t.row.record_size = t.row.size_of ∧
      ∀ r ∈ (w.procs i).kept t, t.row.buf r ≠ [])
    ⟨fun h => ⟨h.1, h.2.1, h.2.2.1, h.2.2.2⟩, fun h => ⟨h.version, h.small, h.row_size, h.rows⟩⟩

instance decidableSavesCurrent (t : table_class Key Row) (w : shared_system Key Row) :
    (a : table_call Key Row) → Decidable (SavesCurrent t w a)
  | .load _ => isTrue trivial
  | .save i => decidableCurrent t w i
  | .edit _ _ _ => isTrue trivial

/-! ## Rows in the memory -/

/-- The memory has these rows, and their number in the header. -/
structure Holds (t : table_class Key Row) (m : shared_buffer) (rows : List Row) : Prop where
  entries : m.header.entries.toNat = rows.length
  records : ∃ rest, m.records = bytes_of t rows ++ rest

namespace shared_table

variable {t : table_class Key Row} {p p' : shared_table Key Row} {m m' : shared_buffer}

/-- A row that is read is added. -/
theorem on_new_entry_spec (r : Row) : ∃ map_entries,
    p.on_new_entry t r = (true, { p with map_entries_ := map_entries }) := by
  unfold on_new_entry
  cases t.get_row_key with
  | none => exact ⟨p.map_entries_, rfl⟩
  | some key => exact ⟨_, rfl⟩

/-- Rows that are written behind each other are read in that order. -/
theorem load_rows_bytes (rows : List Row) (rest : List UInt8) : ∃ map_entries,
    load_rows t rows.length (bytes_of t rows ++ rest) p =
      some { p with entries_ := p.entries_ ++ rows, map_entries_ := map_entries } := by
  induction rows generalizing p with
  | nil => exact ⟨p.map_entries_, by rw [List.append_nil]; rfl⟩
  | cons r rows ih =>
    obtain ⟨map_entries, hnew⟩ := on_new_entry_spec (t := t) (p := p) r
    obtain ⟨last, hload⟩ := ih (p := { p with
      map_entries_ := map_entries
      entries_ := p.entries_ ++ [r] })
    refine ⟨last, ?_⟩
    have hbytes : bytes_of t (r :: rows) ++ rest = t.row.buf r ++ (bytes_of t rows ++ rest) := by
      simp [bytes_of]
    rw [List.length_cons, load_rows, hbytes, t.row.load_buf]
    simp only [hnew, if_true, List.drop_left]
    rw [hload, List.append_assoc]
    rfl

omit [DecidableEq Key] in
/-- Rows without bytes leave no trace. -/
theorem bytes_of_filter (rows : List Row) :
    bytes_of t (rows.filter fun r => !(t.row.buf r).isEmpty) = bytes_of t rows := by
  unfold bytes_of
  induction rows with
  | nil => rfl
  | cons r rows ih =>
    rw [List.filter_cons, List.flatMap_cons]
    cases hr : t.row.buf r with
    | nil => simpa [hr] using ih
    | cons b bytes => simpa [hr] using ih

theorem put_eq (pre old bytes : List UInt8) (h : bytes.length ≤ old.length)
    (hm : m.records = pre ++ old) : ∃ m', m.put pre.length bytes = some m' ∧
      m'.header = m.header ∧ m'.records = pre ++ bytes ++ old.drop bytes.length := by
  unfold shared_buffer.put
  rw [dif_pos (by rw [hm, List.length_append]; omega)]
  refine ⟨_, rfl, rfl, ?_⟩
  simp only [hm, List.take_left']
  rw [← List.drop_drop, List.drop_left]

omit [DecidableEq Key] in
/-- `save` writes the bytes of the rows that are kept, and counts those that have some. -/
theorem save_rows_spec (rows : List Row) (pre old : List UInt8) (n : Nat)
    (hm : m.records = pre ++ old)
    (hfit : (bytes_of t (rows.filter (p.is_kept t))).length ≤ old.length) : ∃ m',
    let bytes := bytes_of t (rows.filter (p.is_kept t))
    p.save_rows t rows pre.length n m = some (pre.length + bytes.length,
      n + ((rows.filter (p.is_kept t)).filter fun r => !(t.row.buf r).isEmpty).length, m') ∧
      m'.header = m.header ∧ m'.records = pre ++ bytes ++ old.drop bytes.length := by
  induction rows generalizing pre old n m with
  | nil => exact ⟨m, rfl, rfl, by simpa [bytes_of] using hm⟩
  | cons r rows ih =>
    unfold save_rows on_write_entry
    by_cases hkept : p.is_kept t r
    · have hcons : (r :: rows).filter (p.is_kept t) = r :: rows.filter (p.is_kept t) :=
        List.filter_cons_of_pos hkept
      rw [hcons] at hfit ⊢
      have hbytes : bytes_of t (r :: rows.filter (p.is_kept t)) =
          t.row.buf r ++ bytes_of t (rows.filter (p.is_kept t)) := rfl
      rw [hbytes, List.length_append] at hfit
      obtain ⟨m₁, hput, hheader, hrecords⟩ :=
        put_eq pre old (t.row.buf r) (by omega) hm
      obtain ⟨m', hsave, hheader', hrecords'⟩ := ih (m := m₁) (pre ++ t.row.buf r)
        (old.drop (t.row.buf r).length) (if (t.row.buf r).length > 0 then n + 1 else n) hrecords
        (by rw [List.length_drop]; omega)
      refine ⟨m', ?_, hheader'.trans hheader, ?_⟩
      · rw [if_pos hkept, hput, Option.map_some]
        rw [List.length_append] at hsave
        cases hr : t.row.buf r with
        | nil =>
          rw [hr] at hsave
          simpa [hbytes, hr] using hsave
        | cons b bytes =>
          rw [hr] at hsave
          simpa [hbytes, hr, Nat.add_assoc, Nat.add_comm 1, Nat.add_left_comm 1] using hsave
      · rw [hrecords', hbytes, List.drop_drop, List.length_append]
        simp
    · have hcons : (r :: rows).filter (p.is_kept t) = rows.filter (p.is_kept t) :=
        List.filter_cons_of_neg hkept
      rw [hcons] at hfit ⊢
      rw [if_neg hkept]
      exact ih pre old n hm hfit

/-- The rows that a load finds after a save. -/
def stored (t : table_class Key Row) (p : shared_table Key Row) : List Row :=
  (p.kept t).filter fun r => !(t.row.buf r).isEmpty

omit [DecidableEq Key] in
theorem length_le_bytes {rows : List Row} (h : ∀ r ∈ rows, t.row.buf r ≠ []) :
    rows.length ≤ (bytes_of t rows).length := by
  induction rows with
  | nil => exact Nat.zero_le _
  | cons r rows ih =>
    have hpos := List.length_pos_iff.mpr (h r List.mem_cons_self)
    have hrest := ih fun q hq => h q (List.mem_cons_of_mem r hq)
    simp only [bytes_of, List.flatMap_cons, List.length_append, List.length_cons] at hrest ⊢
    omega

omit [DecidableEq Key] in
theorem stored_bytes {r : Row} (h : r ∈ p.stored t) : t.row.buf r ≠ [] := by
  simpa using (List.mem_filter.mp h).2

omit [DecidableEq Key] in
/-- Rows that fit are saved, with the next version. -/
theorem save_spec (hfit : (bytes_of t (p.kept t)).length ≤ m.records.length) : ∃ k p' m',
    p.save t true m = some (k, p', m') ∧ Holds t m' (p.stored t) ∧
      m'.header.version = p.header_version + 1 ∧ m'.header.row_size = t.row.record_size ∧
      p'.cur_data_header = m'.header ∧ p'.seen_version_ = p.seen_version_ + 1 := by
  obtain ⟨m', hsave, -, hrecords⟩ :=
    save_rows_spec (p := p) p.entries_ [] m.records 0 (List.nil_append _).symm hfit
  have hcount : (p.stored t).length < 2 ^ 32 := by
    have hle := length_le_bytes fun r hr => stored_bytes (p := p) (t := t) hr
    have hbytes : bytes_of t (p.stored t) = bytes_of t (p.kept t) := bytes_of_filter _
    have hsmall := m.small
    rw [hbytes] at hle
    omega
  have hsaved : p.save t true m = some
      ((sizeof_header : Int) + ((bytes_of t (p.kept t)).length : Int),
        p.write_header t true ((p.stored t).length : Nat) m') := by
    unfold save
    rw [List.length_nil, Nat.zero_add, Nat.zero_add] at hsave
    rw [hsave]
    rfl
  refine ⟨_, _, _, hsaved, ⟨?_, m.records.drop (bytes_of t (p.kept t)).length, ?_⟩,
    rfl, rfl, rfl, rfl⟩
  · exact UInt32.toNat_ofNat_of_lt' hcount
  · have hbytes : bytes_of t (p.stored t) = bytes_of t (p.kept t) := bytes_of_filter _
    rw [hbytes]
    exact hrecords

/-! ## What a load finds -/

/-- A version that is new to the process is loaded. -/
theorem load_new {rows : List Row} (hm : Holds t m rows) (hsize : t.row.size_of = m.header.row_size)
    (hsmall : m.header.version.toNat < 2 ^ 31)
    (hnew : new_version { p with cur_data_header := m.header } = true) :
    ∃ p', p.load t m = some ((rows.length : Int), p') ∧ p'.entries_ = rows ∧
      p'.cur_data_header = m.header ∧ p'.seen_version_ = m.header.version := by
  obtain ⟨rest, hrecords⟩ := hm.records
  have hint : ¬ as_int m.header.version < 0 := by
    rw [as_int, if_pos hsmall]
    omega
  have hread : p.read_header t m =
      (as_int m.header.version, { p with cur_data_header := m.header }) := by
    unfold read_header
    rw [if_neg (not_not.mpr hsize)]
  -- what the process has when the loop starts
  obtain ⟨before, hbefore, hentries, hheader, hseen⟩ : ∃ before : shared_table Key Row,
      p.load t m = (load_rows t m.header.entries.toNat m.records before).map
        (fun p => ((p.entries_.length : Int), p)) ∧
        before.entries_ = [] ∧ before.cur_data_header = m.header ∧
        before.seen_version_ = m.header.version := by
    unfold load
    rw [hread]
    simp only [if_neg hint, if_pos hnew]
    unfold on_new_version
    cases t.get_row_key <;> exact ⟨_, rfl, rfl, rfl, rfl⟩
  obtain ⟨map_entries, hload⟩ := load_rows_bytes (t := t) (p := before) rows rest
  refine ⟨{ before with entries_ := before.entries_ ++ rows, map_entries_ := map_entries },
    ?_, ?_, hheader, hseen⟩
  · rw [hbefore, hm.entries, hrecords, hload, Option.map_some, hentries, List.nil_append]
  · rw [hentries, List.nil_append]

/-- A load that does not fail found a new version. -/
theorem load_result {rows : List Row} {k : Int} (hm : Holds t m rows)
    (h : p.load t m = some (k, p')) (hk : 0 ≤ k) : t.row.size_of = m.header.row_size ∧
      m.header.version.toNat < 2 ^ 31 ∧
      new_version { p with cur_data_header := m.header } = true ∧ p'.entries_ = rows := by
  have hresult : t.row.size_of = m.header.row_size ∧ m.header.version.toNat < 2 ^ 31 ∧
      new_version { p with cur_data_header := m.header } = true := by
    unfold load read_header at h
    by_cases hsize : t.row.size_of = m.header.row_size
    · simp only [if_neg (not_not.mpr hsize)] at h
      by_cases hsmall : m.header.version.toNat < 2 ^ 31
      · refine ⟨hsize, hsmall, ?_⟩
        by_contra hnew
        rw [as_int, if_pos hsmall, if_neg (by omega), if_neg hnew] at h
        cases h
        omega
      · have hlt := m.header.version.toNat_lt
        rw [as_int, if_neg hsmall, if_pos (by omega)] at h
        cases h
        omega
    · rw [if_pos hsize, if_pos (by simp)] at h
      cases h
      omega
  obtain ⟨hsize, hsmall, hnew⟩ := hresult
  obtain ⟨q, hq, hentries, -, -⟩ := load_new hm hsize hsmall hnew
  cases hq.symm.trans h
  exact ⟨hsize, hsmall, hnew, hentries⟩

/-- A version that was seen changes the copy of the header only. -/
theorem load_seen (hseen : p.seen_version_ = m.header.version) :
    ∃ k, p.load t m = some (k, { p with cur_data_header := m.header }) := by
  have hold : ¬ new_version { p with cur_data_header := m.header } = true := by
    simp only [new_version, header_version, hseen, Bool.or_eq_true, Bool.and_eq_true, beq_iff_eq,
      decide_eq_true_eq, not_or, not_and]
    exact ⟨UInt32.lt_irrefl _, fun h => by rw [h]; exact UInt32.lt_irrefl _⟩
  unfold load read_header
  by_cases hsize : t.row.size_of = m.header.row_size
  · simp only [if_neg (not_not.mpr hsize), if_neg hold]
    split <;> exact ⟨_, rfl⟩
  · rw [if_pos hsize, if_pos (by simp)]
    exact ⟨_, rfl⟩

end shared_table

/-! ## One step -/

/-- What a step keeps: the versions of a process agree and are not ahead of the memory, a save is
due for those that are behind it, and the memory has the rows of the last save. -/
structure Counted (t : table_class Key Row) (w : shared_system Key Row) : Prop where
  inside : w.overrun = false
  copies : ∀ i, (w.procs i).header_version = (w.procs i).seen_version_
  behind : ∀ i, (w.procs i).seen_version_ ≤ w.memory.header.version
  small : w.memory.header.version.toNat < 2 ^ 31
  due : ∀ i, w.due i = true ↔ (w.procs i).seen_version_ ≠ w.memory.header.version
  saver : w.memory.header.version ≠ 0 →
    ∃ i, (w.procs i).seen_version_ = w.memory.header.version
  last : w.memory.header.version ≠ 0 → w.saved_version = w.memory.header.version ∧
    w.memory.header.row_size = t.row.size_of ∧ Holds t w.memory w.saved

section
variable {t : table_class Key Row} {w w' : shared_system Key Row} {i : Nat}

/-- A process for which a save is due loads it. -/
theorem Counted.load_due (h : Counted t w) (hdue : w.due i = true) : ∃ p : shared_table Key Row,
    (w.procs i).load t w.memory = some ((w.saved.length : Int), p) ∧ p.entries_ = w.saved ∧
      p.header_version = w.memory.header.version ∧
      p.seen_version_ = w.memory.header.version ∧
      w.saved_version = w.memory.header.version := by
  have hlt : (w.procs i).seen_version_ < w.memory.header.version :=
    UInt32.lt_of_le_of_ne (h.behind i) ((h.due i).mp hdue)
  have hne : w.memory.header.version ≠ 0 := by
    intro hzero
    rw [hzero] at hlt
    exact UInt32.not_lt_zero hlt
  obtain ⟨hversion, hsize, hholds⟩ := h.last hne
  have hnew : shared_table.new_version { w.procs i with cur_data_header := w.memory.header } :=
    by simp [shared_table.new_version, shared_table.header_version, hlt]
  obtain ⟨p, hload, hentries, hheader, hseen⟩ :=
    shared_table.load_new hholds hsize.symm h.small hnew
  exact ⟨p, hload, hentries, congrArg _ hheader, hseen, hversion⟩

theorem Counted.seen (h : Counted t w) : Seen t w := by
  refine ⟨h.inside, fun i hdue => ?_⟩
  obtain ⟨p, hload, hentries, hheader, hseen, hversion⟩ := h.load_due hdue
  exact ⟨p, hload, hentries, hheader.trans hversion.symm, hseen.trans hversion.symm⟩

/-- After a load, a process has seen the version in the memory. -/
theorem Counted.load (h : Counted t w) (hs : table_step t w (.load i) = some w') :
    Counted t w' := by
  obtain ⟨r, hr, rfl⟩ := Option.map_eq_some_iff.mp hs
  obtain ⟨hheader, hseen⟩ : r.2.header_version = w.memory.header.version ∧
      r.2.seen_version_ = w.memory.header.version := by
    by_cases hdue : w.due i = true
    · obtain ⟨p, hload, -, hheader, hseen, -⟩ := h.load_due hdue
      cases hload.symm.trans hr
      exact ⟨hheader, hseen⟩
    · have hsame := not_not.mp (mt (h.due i).mpr hdue)
      obtain ⟨k, hload⟩ := shared_table.load_seen (t := t) hsame
      cases hload.symm.trans hr
      exact ⟨rfl, hsame⟩
  refine ⟨h.inside, fun j => ?_, fun j => ?_, h.small, fun j => ?_, fun hne => ?_, h.last⟩
  · by_cases hj : j = i
    · simp [hj, hheader, hseen]
    · simpa [hj] using h.copies j
  · by_cases hj : j = i
    · simp [hj, hseen]
    · simpa [hj] using h.behind j
  · by_cases hj : j = i
    · simp [hj, hseen]
    · simpa [hj] using h.due j
  · exact ⟨i, by simp [hseen]⟩

omit [DecidableEq Key] in
theorem Counted.edit (h : Counted t w) (entries : List Row) (map_entries : Key → Option Row) :
    Counted t { w with
      procs := Function.update w.procs i
        { w.procs i with entries_ := entries, map_entries_ := map_entries } } := by
  have hsame : ∀ j,
      let p := Function.update w.procs i
        { w.procs i with entries_ := entries, map_entries_ := map_entries } j
      p.seen_version_ = (w.procs j).seen_version_ ∧
        p.header_version = (w.procs j).header_version := by
    intro j
    by_cases hj : j = i
    · subst hj
      simp [shared_table.header_version]
    · simp [hj]
  simp only at hsame
  refine ⟨h.inside, fun j => ?_, fun j => ?_, h.small, fun j => ?_, fun hne => ?_, h.last⟩
  · exact (hsame j).2.trans ((h.copies j).trans (hsame j).1.symm)
  · exact (hsame j).1.symm ▸ h.behind j
  · exact (hsame j).1.symm ▸ h.due j
  · obtain ⟨j, hj⟩ := h.saver hne
    exact ⟨j, (hsame j).1.trans hj⟩

/-- What a save does with rows that fit. -/
theorem save_step (hs : table_step t w (.save i) = some w') : ∃ p' : shared_table Key Row,
    w'.procs = Function.update w.procs i p' ∧ w'.due = (fun j => j != i) ∧
      w'.saved = (w.procs i).kept t ∧ w'.overrun = w.overrun ∧
      Holds t w'.memory ((w.procs i).stored t) ∧
      w'.memory.header.version = (w.procs i).header_version + 1 ∧
      w'.memory.header.row_size = t.row.record_size ∧
      p'.cur_data_header = w'.memory.header ∧
      p'.seen_version_ = (w.procs i).seen_version_ + 1 ∧
      w'.saved_version = w'.memory.header.version := by
  by_cases hfit : sizeof_header + (bytes_of t ((w.procs i).kept t)).length ≤ w.memory.capacity
  · have hrecords : (bytes_of t ((w.procs i).kept t)).length ≤ w.memory.records.length :=
      Nat.le_of_add_le_add_left hfit
    obtain ⟨k, p', m', hsave, hholds, hversion, hsize, hheader, hseen⟩ :=
      shared_table.save_spec hrecords
    simp only [table_step, if_pos hfit, hsave, Option.some.injEq] at hs
    subst hs
    exact ⟨p', rfl, rfl, rfl, rfl, hholds, hversion, hsize, hheader, hseen,
      congrArg shared_table_header.version hheader⟩
  · simp only [table_step, if_neg hfit] at hs
    cases hs

/-- A save by a process that is up to date. -/
theorem Counted.save (h : Counted t w) (hc : Current t w i)
    (hs : table_step t w (.save i) = some w') : Counted t w' := by
  obtain ⟨p', hprocs, hdue, hsaved, hover, hholds, hversion, hsize, hheader, hseen, hlast⟩ :=
    save_step hs
  have hnext : w'.memory.header.version.toNat = w.memory.header.version.toNat + 1 := by
    have hsmall := hc.small
    rw [hversion, hc.version, UInt32.toNat_add, UInt32.toNat_one, Nat.mod_eq_of_lt (by omega)]
  have hstored : (w.procs i).stored t = (w.procs i).kept t :=
    List.filter_eq_self.mpr fun r hr => by simpa using hc.rows r hr
  have hown : p'.seen_version_ = w'.memory.header.version := by
    rw [hseen, hversion, h.copies]
  have hothers : ∀ j, (w.procs j).seen_version_.toNat < w'.memory.header.version.toNat := by
    intro j
    have hle := UInt32.le_iff_toNat_le.mp (h.behind j)
    omega
  refine ⟨hover.trans h.inside, fun j => ?_, fun j => ?_, ?_, fun j => ?_, fun _ => ⟨i, ?_⟩,
    fun _ => ⟨hlast, hsize.trans hc.row_size, ?_⟩⟩
  · rw [hprocs]
    by_cases hj : j = i
    · rw [hj, Function.update_self, hown, shared_table.header_version, hheader]
    · rw [Function.update_of_ne hj]
      exact h.copies j
  · rw [hprocs]
    by_cases hj : j = i
    · rw [hj, Function.update_self, hown]
      exact UInt32.le_refl _
    · rw [Function.update_of_ne hj]
      exact UInt32.le_of_lt (UInt32.lt_iff_toNat_lt.mpr (hothers j))
  · rw [hnext]
    exact hc.small
  · rw [hprocs, hdue]
    by_cases hj : j = i
    · simp [hj, hown]
    · have hne : (w.procs j).seen_version_ ≠ w'.memory.header.version :=
        fun heq => Nat.ne_of_lt (hothers j) (congrArg UInt32.toNat heq)
      simp [hj, hne]
  · rw [hprocs, Function.update_self, hown]
  · rw [hsaved, ← hstored]
    exact hholds

/-- When all processes can load what a process saved, it was up to date. -/
theorem Counted.current (h : Counted t w) (hs : table_step t w (.save i) = some w')
    (hseen' : Seen t w') : Current t w i := by
  obtain ⟨p', hprocs, hdue, hsaved, -, hholds, hversion, hsize, -, -, -⟩ := save_step hs
  have hload : ∀ j, j ≠ i → t.row.size_of = w'.memory.header.row_size ∧
      w'.memory.header.version.toNat < 2 ^ 31 ∧
      shared_table.new_version { w.procs j with cur_data_header := w'.memory.header } = true ∧
      w'.saved = (w.procs i).stored t := by
    intro j hj
    obtain ⟨p, hp, hentries, -, -⟩ := hseen'.loads j (by simp [hdue, hj])
    rw [hprocs, Function.update_of_ne hj] at hp
    obtain ⟨hrow, hsmall, hnew, hrows⟩ :=
      shared_table.load_result hholds hp (Int.natCast_nonneg _)
    exact ⟨hrow, hsmall, hnew, hentries.symm.trans hrows⟩
  obtain ⟨hrow, hsmall', -, hrows⟩ := hload (i + 1) (Nat.succ_ne_self i)
  -- the version of the process is not ahead of the memory, so the next one does not wrap
  have hle : (w.procs i).header_version.toNat ≤ w.memory.header.version.toNat := by
    rw [h.copies]
    exact UInt32.le_iff_toNat_le.mp (h.behind i)
  have hsmall := h.small
  have hnext : w'.memory.header.version.toNat = (w.procs i).header_version.toNat + 1 := by
    rw [hversion, UInt32.toNat_add, UInt32.toNat_one, Nat.mod_eq_of_lt (by omega)]
  have hequal : (w.procs i).header_version = w.memory.header.version := by
    by_cases hzero : w.memory.header.version = 0
    · rw [hzero] at hle ⊢
      exact UInt32.toNat_inj.mp (by simpa using hle)
    · obtain ⟨j, hj⟩ := h.saver hzero
      by_cases hji : j = i
      · rw [h.copies, ← hji, hj]
      · obtain ⟨-, -, hnew, -⟩ := hload j hji
        simp only [shared_table.new_version, shared_table.header_version, Bool.or_eq_true,
          Bool.and_eq_true, beq_iff_eq, decide_eq_true_eq] at hnew
        have hlt : w.memory.header.version.toNat < w'.memory.header.version.toNat := by
          rcases hnew with hlt | ⟨hwrap, -⟩
          · rw [hj] at hlt
            exact UInt32.lt_iff_toNat_lt.mp (of_decide_eq_true hlt)
          · rw [hwrap, UInt32.toNat_zero] at hnext
            omega
        exact UInt32.toNat_inj.mp (by omega)
  refine ⟨hequal, ?_, hsize.symm.trans hrow.symm, ?_⟩
  · rw [← hequal]
    omega
  · intro r hr
    rw [hsaved] at hrows
    rw [hrows] at hr
    exact shared_table.stored_bytes hr

theorem step_counted {a : table_call Key Row} (h : Counted t w) (hc : SavesCurrent t w a)
    (hs : table_step t w a = some w') : Counted t w' := by
  cases a with
  | load i => exact h.load hs
  | save i => exact h.save hc hs
  | edit i entries map_entries =>
    cases hs
    exact h.edit entries map_entries

omit [DecidableEq Key] in
theorem new_counted {size : Nat} (hsize : sizeof_header + size < 2 ^ 31) :
    Counted t (.new t size hsize) :=
  ⟨rfl, fun _ => rfl, fun _ => UInt32.le_refl _, Nat.two_pow_pos 31,
    fun _ => iff_of_false Bool.false_ne_true (not_not.mpr rfl), fun hne => absurd rfl hne,
    fun hne => absurd rfl hne⟩

end

/-! ## Runs -/

/-- No save goes past the capacity, and each process loads the last save of another one, in a run in
which processes save only when they are up to date, and in no other. -/
theorem saves_are_seen (t : table_class Key Row) (size : Nat)
    (hsize : sizeof_header + size < 2 ^ 31) (calls : List (table_call Key Row)) :
    Always (table_step t) (Seen t) (.new t size hsize) calls ↔
      Meets (table_step t) (SavesCurrent t) (.new t size hsize) calls := by
  refine always_iff_meets (fun _ h => h.seen) (fun _ _ _ h hc hs => step_counted h hc hs)
    (fun w a w' h hc hs hseen => hc ?_) (new_counted hsize) calls
  cases a with
  | save i => exact h.current hs hseen
  | load i => trivial
  | edit i entries map_entries => trivial

/-- Rows of one byte. -/
def byte_row : row_type UInt8 where
  size_of := 1
  record_size := 1
  buf r := [r]
  load
    | r :: _ => some (r, 1)
    | [] => none
  load_buf _ _ := rfl

def byte_table : table_class Nat UInt8 where
  row := byte_row

/-- Process 0 saves, and process 1 loads the save and saves its own rows. -/
theorem a_second_save_is_seen :
    Always (table_step byte_table) (Seen byte_table)
      (.new byte_table 100 (by decide))
      [.edit 0 [1, 2] fun _ => none, .save 0, .load 1, .edit 1 [3] fun _ => none, .save 1] := by
  exact (saves_are_seen byte_table 100 (by decide) _).mpr (by decide)

/-- Two processes load and then both save. Their versions are the same, so the first one does not
load what the second one saved. -/
theorem a_save_of_the_same_version_is_skipped :
    ¬ ∀ (t : table_class Nat UInt8) (size : Nat) (hsize : sizeof_header + size < 2 ^ 31)
      (calls : List (table_call Nat UInt8)),
      Always (table_step t) (Seen t) (.new t size hsize) calls := by
  intro hall
  have hrun : (exec (table_step byte_table)
      (.new byte_table 100 (by decide))
      [.load 0, .load 1, .edit 0 [1] fun _ => none, .edit 1 [2] fun _ => none, .save 0,
        .save 1]).map (fun w => (w.due 0,
          ((w.procs 0).load byte_table w.memory).map Prod.fst, w.saved)) =
      some (true, some (-1), [2]) := by decide
  obtain ⟨w, hw, hend⟩ := Option.map_eq_some_iff.mp hrun
  rw [Prod.mk.injEq, Prod.mk.injEq] at hend
  obtain ⟨hdue, hload, hsaved⟩ := hend
  obtain ⟨p, hp, -⟩ := (always_exec (hall _ _ _ _) hw).loads 0 hdue
  rw [hp, hsaved] at hload
  cases hload

end socle.shm
