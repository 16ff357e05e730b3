-- The pool of output streams (traflog/poolwriter.cpp) over a file system. A
-- stream appends to the file that had its name when the stream was opened,
-- also when the name has gone to another file since.
import Socle.PtrCache

namespace socle.traflog

variable {F β : Type} [DecidableEq F]

/-! ## Files -/

/-- A file system: the file that a name refers to, and what each file holds. Files are numbered in
the order of their creation. -/
structure file_system (F β : Type) where
  names : F → Option Nat := fun _ => none
  contents : Nat → List β := fun _ => []
  created : Nat := 0

namespace file_system

/-- `stat(fnm)` finds the file. -/
def file_exists (fs : file_system F β) (fnm : F) : Bool :=
  (fs.names fnm).isSome

/-- The file of a name, which is created when there is none. -/
def open_file (fs : file_system F β) (fnm : F) : Nat × file_system F β :=
  match fs.names fnm with
  | some i => (i, fs)
  | none => (fs.created, { fs with
      names := Function.update fs.names fnm (some fs.created)
      created := fs.created + 1 })

/-- Data at the end of a file. -/
def append (fs : file_system F β) (i : Nat) (data : List β) : file_system F β :=
  { fs with contents := Function.update fs.contents i (fs.contents i ++ data) }

end file_system

/-! ## Streams -/

/-- `std::ofstream`, opened for `fnm` with the flag `app`. -/
structure ofstream (F : Type) where
  fnm : F
  file : Nat

/-- `poolFileWriter`, with the file system. `handed` is not in the code: it records the data that
streams were given, with the name that the stream was opened for. -/
structure poolFileWriter (F β : Type) [DecidableEq F] where
  ofstream_pool : fifo_cache F (ofstream F) := ⟨{ max_size_ := 30 }, rfl⟩
  disk : file_system F β := {}
  handed : List (F × List β) := []

namespace poolFileWriter

/-- `ofstream_pool.get(fnm)`. There is no check of expiration, so the time does not matter. -/
def pooled (w : poolFileWriter F β) (fnm : F) : Option (ofstream F) × poolFileWriter F β :=
  let r := w.ofstream_pool.get 0 fnm
  (r.1, { w with ofstream_pool := r.2 })

def get_ofstream (w : poolFileWriter F β) (fnm : F) (create : Bool) :
    Option (ofstream F) × poolFileWriter F β :=
  match w.pooled fnm with
  | (some optr, w) => (some optr, w)
  | (none, w) =>
    if !create then (none, w)
    else
      let stream := w.disk.open_file fnm
      pooled { w with
        ofstream_pool := w.ofstream_pool.set fnm { fnm, file := stream.1 }
        disk := stream.2 } fnm

/-- `*resource->first << buf`. -/
def put (w : poolFileWriter F β) (resource : ofstream F) (buf : List β) : poolFileWriter F β :=
  { w with
    disk := w.disk.append resource.file buf
    handed := w.handed ++ [(resource.fnm, buf)] }

/-- `poolFileWriter::write`: the number of bytes that were written. -/
def write (w : poolFileWriter F β) (fnm : F) (buf : List β) : Nat × poolFileWriter F β :=
  match w.get_ofstream fnm true with
  | (none, w) => (0, w)
  | (some resource, w) => if buf.isEmpty then (0, w) else (buf.length, w.put resource buf)

/-- `flush`: what a stream was given counts as written, so nothing is left to do. -/
def flush (w : poolFileWriter F β) (fnm : F) : Bool × poolFileWriter F β :=
  let o := w.get_ofstream fnm false
  (o.1.isSome, o.2)

def close (w : poolFileWriter F β) (fnm : F) : Bool × poolFileWriter F β :=
  match w.get_ofstream fnm false with
  | (some _, w) => (true, { w with ofstream_pool := w.ofstream_pool.erase fnm })
  | (none, w) => (false, w)

/-- `open`. -/
def open_ (w : poolFileWriter F β) (fnm : F) : Bool × poolFileWriter F β :=
  let o := w.get_ofstream fnm true
  (o.1.isSome, o.2)

/-- `recreate`: the file of that name is missing. Its stream is closed then. -/
def recreate (w : poolFileWriter F β) (fnm : F) : Bool × poolFileWriter F β :=
  if w.disk.file_exists fnm then (false, w) else (true, (w.close fnm).2)

end poolFileWriter

/-! ## The pool -/

namespace poolFileWriter

variable {w : poolFileWriter F β} {fnm g : F} {buf : List β}

/-- The stream that the pool has for a name. -/
def stream_of (w : poolFileWriter F β) (fnm : F) : Option (ofstream F) :=
  (w.ofstream_pool.cache.cache_ fnm).map DataBlock.pointer_

/-- Each stream of the pool was opened for its key, and none of them expires. -/
structure Pooled (w : poolFileWriter F β) : Prop where
  unchecked : w.ofstream_pool.cache.fn_expired_check = none
  named : ∀ fnm o, w.stream_of fnm = some o → o.fnm = fnm

theorem pooled_eq (h : w.Pooled) (fnm : F) : w.pooled fnm = (w.stream_of fnm, w) := by
  unfold pooled stream_of
  rw [fifo_cache.get_of_unchecked h.unchecked]

/-- What the pool has when it was given a stream: this one, and of the others those that it
kept. -/
theorem stream_of_set (fnm : F) (o : ofstream F) (disk : file_system F β) :
    let w' : poolFileWriter F β :=
      { w with ofstream_pool := w.ofstream_pool.set fnm o, disk := disk }
    w'.stream_of fnm = some o ∧
      ∀ g, g ≠ fnm → ∀ p, w'.stream_of g = some p → w.stream_of g = some p := by
  rcases w.ofstream_pool.set_spec fnm o with ⟨-, hnew, hold⟩
  refine ⟨hnew, fun g hg p hp => ?_⟩
  obtain ⟨b, hb, rfl⟩ := Option.map_eq_some_iff.mp hp
  exact Option.map_eq_some_iff.mpr ⟨b, hold g hg b hb, rfl⟩

/-! ## What the calls do -/

/-- `w'` is `w` with a stream for `fnm`, which is the pooled one or a new one for the file of that
name. -/
structure Opened (fnm : F) (o : ofstream F) (w w' : poolFileWriter F β) : Prop where
  pooled : w'.Pooled
  handed : w'.handed = w.handed
  stream : w'.stream_of fnm = some o
  others : ∀ g, g ≠ fnm → ∀ p, w'.stream_of g = some p → w.stream_of g = some p
  source : (w.stream_of fnm = some o ∧ w'.disk = w.disk) ∨
    (w.stream_of fnm = none ∧ o.file = (w.disk.open_file fnm).1 ∧
      w'.disk = (w.disk.open_file fnm).2)

/-- `get_ofstream` gives a stream for the name. -/
theorem get_ofstream_spec (h : w.Pooled) (fnm : F) :
    ∃ o w', w.get_ofstream fnm true = (some o, w') ∧ Opened fnm o w w' := by
  unfold get_ofstream
  rw [pooled_eq h]
  cases hs : w.stream_of fnm with
  | some o => exact ⟨o, w, rfl, h, rfl, hs, fun _ _ _ hp => hp, .inl ⟨hs, rfl⟩⟩
  | none =>
    have hset := stream_of_set (w := w) fnm
      { fnm, file := (w.disk.open_file fnm).1 } (w.disk.open_file fnm).2
    have hp : Pooled { w with
        ofstream_pool := w.ofstream_pool.set fnm { fnm, file := (w.disk.open_file fnm).1 }
        disk := (w.disk.open_file fnm).2 } := by
      refine ⟨(fifo_cache.set_check _ _ _).trans h.unchecked, fun g p hp => ?_⟩
      by_cases hg : g = fnm
      · subst hg
        cases hset.1.symm.trans hp
        rfl
      · exact h.named g p (hset.2 g hg p hp)
    refine ⟨_, _, ?_, hp, rfl, hset.1, hset.2, .inr ⟨hs, rfl, rfl⟩⟩
    simp only [Bool.not_true, Bool.false_eq_true, if_false]
    rw [pooled_eq hp, hset.1]

/-- Without `create`, only a pooled stream is found. -/
theorem get_ofstream_pooled (h : w.Pooled) (fnm : F) :
    w.get_ofstream fnm false = (w.stream_of fnm, w) := by
  unfold get_ofstream
  rw [pooled_eq h]
  cases w.stream_of fnm <;> rfl

/-- Data go to a stream for the name. Without data, there is a stream only. -/
theorem write_spec (h : w.Pooled) (fnm : F) (buf : List β) :
    ∃ o w', Opened fnm o w w' ∧
      (w.write fnm buf).2 = if buf.isEmpty then w' else w'.put o buf := by
  obtain ⟨o, w', hget, hopened⟩ := get_ofstream_spec h fnm
  refine ⟨o, w', hopened, ?_⟩
  unfold write
  rw [hget]
  by_cases hbuf : buf.isEmpty
  · simp only [if_pos hbuf]
  · simp only [if_neg hbuf]

@[simp] theorem put_stream_of (o : ofstream F) : (w.put o buf).stream_of g = w.stream_of g := rfl

theorem put_pooled (h : w.Pooled) (o : ofstream F) : (w.put o buf).Pooled :=
  ⟨h.unchecked, h.named⟩

theorem write_pooled (h : w.Pooled) (fnm : F) (buf : List β) : (w.write fnm buf).2.Pooled := by
  obtain ⟨o, w', hopened, heq⟩ := write_spec h fnm buf
  rw [heq]
  split
  · exact hopened.pooled
  · exact put_pooled hopened.pooled o

/-- What a write hands out, with its own name. -/
theorem write_handed (h : w.Pooled) (fnm : F) (buf : List β) :
    (w.write fnm buf).2.handed = w.handed ++ if buf.isEmpty then [] else [(fnm, buf)] := by
  obtain ⟨o, w', hopened, heq⟩ := write_spec h fnm buf
  rw [heq]
  split
  · rw [hopened.handed, List.append_nil]
  · rw [← hopened.pooled.named fnm o hopened.stream, ← hopened.handed]
    rfl

theorem flush_eq (h : w.Pooled) (fnm : F) : (w.flush fnm).2 = w := by
  unfold flush
  rw [get_ofstream_pooled h]

/-- `close` takes the stream of the name out of the pool. -/
theorem close_spec (h : w.Pooled) (fnm : F) :
    (w.close fnm).2.Pooled ∧ (w.close fnm).2.handed = w.handed ∧
      (w.close fnm).2.disk = w.disk ∧
      ∀ g, (w.close fnm).2.stream_of g = if g = fnm then none else w.stream_of g := by
  unfold close
  rw [get_ofstream_pooled h]
  cases hs : w.stream_of fnm with
  | none =>
    refine ⟨h, rfl, rfl, fun g => ?_⟩
    change w.stream_of g = _
    by_cases hg : g = fnm
    · rw [if_pos hg, hg, hs]
    · rw [if_neg hg]
  | some o =>
    have hstream : ∀ g, ((w.ofstream_pool.cache.erase fnm).2.cache_ g).map DataBlock.pointer_ =
        if g = fnm then none else w.stream_of g := by
      intro g
      obtain ⟨b, hb, -⟩ := Option.map_eq_some_iff.mp hs
      unfold ptr_cache.erase
      rw [hb]
      by_cases hg : g = fnm
      · simp [hg]
      · simp [hg, stream_of]
    refine ⟨⟨?_, fun g p hp => ?_⟩, rfl, rfl, hstream⟩
    · exact (ptr_cache.erase_within _ _).fn_expired_check.trans h.unchecked
    · have hp' := (hstream g).symm.trans hp
      split at hp'
      · cases hp'
      · exact h.named g p hp'

theorem open_spec (h : w.Pooled) (fnm : F) : ∃ o, Opened fnm o w (w.open_ fnm).2 := by
  obtain ⟨o, w', hget, hopened⟩ := get_ofstream_spec h fnm
  unfold open_
  rw [hget]
  exact ⟨o, hopened⟩

theorem recreate_pooled (h : w.Pooled) (fnm : F) : (w.recreate fnm).2.Pooled ∧
    (w.recreate fnm).2.handed = w.handed := by
  unfold recreate
  split
  · exact ⟨h, rfl⟩
  · exact ⟨(close_spec h fnm).1, (close_spec h fnm).2.1⟩

end poolFileWriter

end socle.traflog
