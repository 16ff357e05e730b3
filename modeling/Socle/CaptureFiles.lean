-- The files of the captures (traflog/pcaplog.cpp: prepare_file,
-- write_pcap_header, write). Connections decide by a look at the file system
-- what to write, and the blocks come to the files through the queue of the
-- writer.
import Socle.PcapngBlocks
import Socle.ThreadedWriter

namespace socle.traflog

open lib.run pcapng

/-! ## Files -/

namespace file_system

variable {F β : Type} [DecidableEq F]

/-- `remove`. A file without a name keeps its data for the streams that it is open in. -/
def remove (fs : file_system F β) (fnm : F) : file_system F β :=
  { fs with names := Function.update fs.names fnm none }

/-- `rename`, which fails when there is no file. -/
def rename (fs : file_system F β) (fnm renamed_fnm : F) : Option (file_system F β) :=
  (fs.names fnm).map fun i =>
    { fs with names := Function.update (Function.update fs.names renamed_fnm (some i)) fnm none }

/-- `creat`, with `O_TRUNC`. -/
def creat (fs : file_system F β) (fnm : F) : file_system F β :=
  let file := fs.open_file fnm
  { file.2 with contents := Function.update file.2.contents file.1 [] }

variable {fs fs' : file_system F β} {fnm renamed_fnm : F}

theorem remove_names (g : F) :
    (fs.remove fnm).names g = if g = fnm then none else fs.names g :=
  Function.update_apply ..

/-- What a rename does, when the file is there. -/
theorem rename_spec (h : fs.rename fnm renamed_fnm = some fs') :
    ∃ i, fs.names fnm = some i ∧ fs'.contents = fs.contents ∧ fs'.created = fs.created ∧
      ∀ g, fs'.names g =
        if g = fnm then none else if g = renamed_fnm then some i else fs.names g := by
  obtain ⟨i, hname, rfl⟩ := Option.map_eq_some_iff.mp h
  refine ⟨i, hname, rfl, rfl, fun g => ?_⟩
  simp only [Function.update_apply]

/-- A file that is missing is created without contents. -/
theorem creat_missing (h : fs.names fnm = none) :
    (fs.creat fnm).created = fs.created + 1 ∧
      (∀ g, (fs.creat fnm).names g = if g = fnm then some fs.created else fs.names g) ∧
      ∀ j, (fs.creat fnm).contents j = if j = fs.created then [] else fs.contents j := by
  unfold creat open_file
  rw [h]
  exact ⟨rfl, fun g => Function.update_apply .., fun j => Function.update_apply ..⟩

/-- A file has one name at most, and the files to come have none. -/
structure Proper (fs : file_system F β) : Prop where
  numbered : ∀ fnm i, fs.names fnm = some i → i < fs.created
  distinct : ∀ fnm fnm' i, fs.names fnm = some i → fs.names fnm' = some i → fnm = fnm'

theorem remove_less {g : F} {i : Nat} (h : (fs.remove fnm).names g = some i) :
    g ≠ fnm ∧ fs.names g = some i := by
  rw [remove_names] at h
  split at h
  next => cases h
  next hne => exact ⟨hne, h⟩

theorem Proper.remove (h : fs.Proper) (fnm : F) : (fs.remove fnm).Proper where
  numbered := fun g i hg => h.numbered g i (remove_less hg).2
  distinct := fun g g' i hg hg' => h.distinct g g' i (remove_less hg).2 (remove_less hg').2

theorem Proper.rename (h : fs.Proper) (hs : fs.rename fnm renamed_fnm = some fs') : fs'.Proper := by
  obtain ⟨i, hname, -, hcreated, hnames⟩ := rename_spec hs
  -- a name comes from the same name, or it is the new one
  have hfrom : ∀ g j, fs'.names g = some j →
      g ≠ fnm ∧ (g = renamed_fnm ∧ j = i ∨ fs.names g = some j) := by
    intro g j hg
    rw [hnames] at hg
    split at hg
    next => cases hg
    next hne =>
      split at hg
      next hnew => exact ⟨hne, Or.inl ⟨hnew, (Option.some.inj hg).symm⟩⟩
      next => exact ⟨hne, Or.inr hg⟩
  refine ⟨?_, ?_⟩
  · intro g j hg
    rw [hcreated]
    rcases (hfrom g j hg).2 with ⟨-, rfl⟩ | hold
    · exact h.numbered _ _ hname
    · exact h.numbered g j hold
  · intro g g' j hg hg'
    obtain ⟨hne, hcase⟩ := hfrom g j hg
    obtain ⟨hne', hcase'⟩ := hfrom g' j hg'
    rcases hcase with ⟨rfl, rfl⟩ | hold
    · rcases hcase' with ⟨rfl, -⟩ | hold'
      · rfl
      · exact absurd (h.distinct _ _ _ hold' hname) hne'
    · rcases hcase' with ⟨rfl, rfl⟩ | hold'
      · exact absurd (h.distinct _ _ _ hold hname) hne
      · exact h.distinct _ _ _ hold hold'

theorem Proper.creat (h : fs.Proper) (hname : fs.names fnm = none) : (fs.creat fnm).Proper := by
  obtain ⟨hcreated, hnames, -⟩ := creat_missing hname
  have hfrom : ∀ g j, (fs.creat fnm).names g = some j →
      g = fnm ∧ j = fs.created ∨ fs.names g = some j := by
    intro g j hg
    rw [hnames] at hg
    split at hg
    next hnew => exact Or.inl ⟨hnew, (Option.some.inj hg).symm⟩
    next => exact Or.inr hg
  refine ⟨?_, ?_⟩
  · intro g j hg
    rw [hcreated]
    rcases hfrom g j hg with ⟨-, rfl⟩ | hold
    · exact Nat.lt_succ_self _
    · exact Nat.lt_succ_of_lt (h.numbered g j hold)
  · intro g g' j hg hg'
    rcases hfrom g j hg with ⟨rfl, rfl⟩ | hold
    · rcases hfrom g' _ hg' with ⟨rfl, -⟩ | hold'
      · rfl
      · exact absurd (h.numbered g' _ hold') (Nat.lt_irrefl _)
    · rcases hfrom g' j hg' with ⟨rfl, rfl⟩ | hold'
      · exact absurd (h.numbered g _ hold) (Nat.lt_irrefl _)
      · exact h.distinct g g' j hold hold'

end file_system

/-- The name of a capture file: one that `generate_filename` or `generate_filename_single` gives, or
that of the old file. -/
inductive capture_file (N : Type)
  | named (filename : N)
  | old
deriving DecidableEq, Repr

/-! ## Logs -/

inductive next_proto
  | TCP | UDP
deriving DecidableEq, Repr

/-- `PcapLog`. `fs_lock_` is whether the lock is held. -/
structure PcapLog (N : Type) where
  filename_full : N
  next_proto : next_proto := .TCP
  single_only : Bool := false
  pcap_header_written : Bool := false
  tcp_start_written : Bool := false
  stat_bytes_written : Int := 0
  stat_bytes_quota : Int := 0
  rotate_now : Bool := false
  fs_lock_ : Bool := false

namespace PcapLog

variable {N : Type}

/-- Insanely low sizes are not allowed. -/
def quota (self : PcapLog N) : Int :=
  if self.stat_bytes_quota > 0 ∧ self.stat_bytes_quota ≤ 10000000 then 10000000
  else self.stat_bytes_quota

def rotation_due (self : PcapLog N) : Bool :=
  (self.quota > 0 && self.stat_bytes_written ≥ self.quota) || self.rotate_now

end PcapLog

/-- What `write` is called for: the frames of the handshake, which are written when they were not
yet, and those of the data. `next_filename` is what `generate_filename_single` gives during the
call. -/
structure write_args (N : Type) where
  handshake : List pcapng_epb
  frames : List pcapng_epb
  next_filename : N

/-- Where a call of `write` is: before the lock, under the lock before the rotation, after `close`
and before `rename`, before `recreate`, before `creat`, before the decision about the header, before
the header, before the handshake, and before the data. -/
inductive write_stage
  | locking | preparing | moving | looking | creating
  | deciding (is_recreated : Bool)
  | heading | starting | putting
deriving DecidableEq, Repr

/-- The writer and all logs. `none` is the log of `single_instance`, and `some c` the log of the
connection `c`, which has one call at a time. The rest is not in the code: `awaiting` has the file
that each queued write is meant for, which is the one that has the name when it is queued, and
`taken` the same for the writes that were taken from the queue. -/
structure captures (N : Type) [DecidableEq N] where
  writer_ : threadedPoolFileWriter (capture_file N) block := {}
  logs : Option Nat → PcapLog N
  calls : Nat → Option (write_stage × write_args N) := fun _ => none
  awaiting : List (Option Nat × List block) := []
  taken : List (Option Nat × List block) := []

inductive capture_event (N : Type)
  | write (c : Nat) (args : write_args N)
  | go_on (c : Nat)
  | worker
  | removed (fnm : capture_file N)
  | rotate (l : Option Nat)
  | set_quota (l : Option Nat) (n : Int)

namespace captures

variable {N : Type} [DecidableEq N]

/-- `self`: the log that a connection writes with. -/
def self_of (w : captures N) (c : Nat) : Option Nat :=
  if (w.logs (some c)).single_only then none else some c

def filename (w : captures N) (c : Nat) : capture_file N :=
  .named (w.logs (w.self_of c)).filename_full

def disk (w : captures N) : file_system (capture_file N) block :=
  w.writer_.writer.disk

def on_log (w : captures N) (l : Option Nat) (g : PcapLog N → PcapLog N) : captures N :=
  { w with logs := Function.update w.logs l (g (w.logs l)) }

def on_disk (w : captures N)
    (g : file_system (capture_file N) block → file_system (capture_file N) block) : captures N :=
  { w with writer_ := w.writer_.base { w.writer_.writer with disk := g w.disk } }

def at_stage (w : captures N) (c : Nat) (call : Option (write_stage × write_args N)) :
    captures N :=
  { w with calls := Function.update w.calls c call }

/-- `writer_->write(FS.filename_full, out)`, and `stat_bytes_written`. -/
def put (w : captures N) (c : Nat) (out : List block) : captures N :=
  { w with
    writer_ := w.writer_.write (w.filename c) out
    awaiting := w.awaiting ++ [(w.disk.names (w.filename c), out)] }.on_log (w.self_of c)
      fun self => { self with
        stat_bytes_written := self.stat_bytes_written + (out.map block.size).sum }

/-- The rotation, up to `close`. The old file is removed. -/
def begin_rotation (w : captures N) (c : Nat) : captures N :=
  let w := w.on_disk fun disk => disk.remove .old
  let w := { w with writer_ := w.writer_.base (w.writer_.writer.close (w.filename c)).2 }
  w.on_log (w.self_of c) fun self => { self with rotate_now := false }

/-- The rest of the rotation. -/
def end_rotation (w : captures N) (c : Nat) (next_filename : N) : captures N :=
  match w.disk.rename (w.filename c) .old with
  | some disk => (w.on_disk fun _ => disk).on_log (w.self_of c) fun self => { self with
      filename_full := next_filename
      stat_bytes_written := 0 }
  | none => w

/-- The next step of a call of `write`. -/
def go_on (w : captures N) (c : Nat) : Option (captures N) :=
  match w.calls c with
  | none => none
  | some (stage, args) =>
    let l := w.self_of c
    let self := w.logs l
    match stage with
    | .locking =>
      if self.fs_lock_ then none
      else some ((w.on_log l fun self => { self with fs_lock_ := true }).at_stage c
        (some (.preparing, args)))
    | .preparing =>
      if (w.logs (some c)).single_only then
        let w := w.on_log l fun self => { self with stat_bytes_quota := self.quota }
        if self.rotation_due then some ((w.begin_rotation c).at_stage c (some (.moving, args)))
        else some (w.at_stage c (some (.looking, args)))
      else some (w.at_stage c (some (.looking, args)))
    | .moving => some ((w.end_rotation c args.next_filename).at_stage c (some (.looking, args)))
    | .looking =>
      match w.writer_.writer.recreate (w.filename c) with
      | (true, writer) => some ({ w with writer_ := w.writer_.base writer }.at_stage c
          (some (.creating, args)))
      | (false, writer) => some (({ w with writer_ := w.writer_.base writer }.on_log l
          fun self => { self with fs_lock_ := false }).at_stage c (some (.deciding false, args)))
    | .creating => some (((w.on_disk fun disk => disk.creat (w.filename c)).on_log l
        fun self => { self with fs_lock_ := false, stat_bytes_written := 0 }).at_stage c
          (some (.deciding true, args)))
    | .deciding is_recreated =>
      if !self.pcap_header_written || is_recreated then some (w.at_stage c (some (.heading, args)))
      else some (w.at_stage c (some (.starting, args)))
    | .heading =>
      some (((w.put c [.section_header {}, .interface {}]).on_log l
        fun self => { self with pcap_header_written := true }).at_stage c (some (.starting, args)))
    | .starting =>
      if (w.logs (some c)).next_proto = .TCP ∧ (w.logs (some c)).tcp_start_written = false then
        some (((w.put c (args.handshake.map .packet)).on_log (some c)
          fun self => { self with tcp_start_written := true }).at_stage c (some (.putting, args)))
      else some (w.at_stage c (some (.putting, args)))
    | .putting =>
      if args.frames.isEmpty then some (w.at_stage c none)
      else some ((w.put c (args.frames.map .packet)).at_stage c none)

/-- A step of the worker. -/
def work (w : captures N) : Option (captures N) :=
  w.writer_.worker.map fun writer_ =>
    if w.writer_.worker_thread_ = .taking then
      { w with writer_, awaiting := w.awaiting.tail, taken := w.taken ++ w.awaiting.head?.toList }
    else { w with writer_ }

def step (w : captures N) : capture_event N → Option (captures N)
  | .write c args =>
    if (w.calls c).isSome then none else some (w.at_stage c (some (.locking, args)))
  | .go_on c => w.go_on c
  | .worker => w.work
  | .removed fnm => some (w.on_disk fun disk => disk.remove fnm)
  | .rotate l => some (w.on_log l fun self => { self with rotate_now := true })
  | .set_quota l n => some (w.on_log l fun self => { self with stat_bytes_quota := n })

/-- All logs, before anything was written. -/
def new (logs : Option Nat → N × next_proto × Bool) : captures N where
  logs := fun l =>
    { filename_full := (logs l).1, next_proto := (logs l).2.1, single_only := (logs l).2.2 }

end captures

/-! ## The law -/

/-- The writes that are meant for a file. -/
def meant_for (i : Nat) (writes : List (Option Nat × List block)) : List (List block) :=
  (writes.filter fun m => m.1 = some i).map Prod.snd

/-- One section header, one interface block, and then packet blocks only. -/
def Capture (blocks : List block) : Prop :=
  ∃ packets : List pcapng_epb,
    blocks = .section_header {} :: .interface {} :: packets.map .packet

section
variable {N : Type} [DecidableEq N]

/-- Each file that has a name is a capture, or it is still empty, which it is not when all calls
came to their ends and nothing is queued. Each write is meant for a file, and what was taken from
the queue came to the file that it was meant for. -/
structure WellFormed (w : captures N) : Prop where
  begun : ∀ fnm i, w.disk.names fnm = some i → w.disk.contents i = [] ∨ Capture (w.disk.contents i)
  whole : (∀ c, w.calls c = none) → w.writer_.task_queue_ = [] →
    ∀ fnm i, w.disk.names fnm = some i → Capture (w.disk.contents i)
  meant : ∀ m ∈ w.taken ++ w.awaiting, m.1 ≠ none
  placed : ∀ i, w.disk.contents i = (meant_for i w.taken).flatten

/-- What a call is going to do with its file: to create it, to put its header, or to put frames. -/
inductive phase
  | creating | heading | filling
deriving DecidableEq, Repr

def phase_of : write_stage → Option phase
  | .locking | .preparing | .moving | .looking => none
  | .creating => some .creating
  | .deciding true | .heading => some .heading
  | .deciding false | .starting | .putting => some .filling

/-- What the connection is going to do, and with which file. -/
def captures.role (w : captures N) (c : Nat) : Option (phase × capture_file N) :=
  (w.calls c).bind fun call => (phase_of call.1).map fun p => (p, w.filename c)

/-- No write for the name is queued, and no other connection is going to do anything with it. -/
structure Quiet (w : captures N) (c : Nat) (fnm : capture_file N) : Prop where
  queued : ∀ e ∈ w.writer_.task_queue_, e.1 ≠ fnm
  others : ∀ c' p, c' ≠ c → w.role c' ≠ some (p, fnm)

/-- A file is renamed only when it is quiet around it, and a call that misses the file of its log
finds quiet around it as well. A call that finds the file has a log that put a header, and no other
connection is going to put one. A file is deleted only when nothing is queued for it, and no
connection is going to do anything with it. -/
def Careful (w : captures N) : capture_event N → Prop
  | .go_on c => ∀ stage args, w.calls c = some (stage, args) →
    (stage = .moving → w.disk.names (w.filename c) ≠ none → Quiet w c (w.filename c)) ∧
    (stage = .looking → w.disk.names (w.filename c) = none → Quiet w c (w.filename c)) ∧
    (stage = .looking → w.disk.names (w.filename c) ≠ none →
      (w.logs (w.self_of c)).pcap_header_written = true ∧
        ∀ c', c' ≠ c → w.role c' ≠ some (.heading, w.filename c))
  | .removed fnm => (∀ e ∈ w.writer_.task_queue_, e.1 ≠ fnm) ∧ ∀ c p, w.role c ≠ some (p, fnm)
  | _ => True

end

/-! ## What is kept -/

/-- The writes for a file: its header, and then packets. -/
def Headed (writes : List (List block)) : Prop :=
  ∃ rest, writes = [.section_header {}, .interface {}] :: rest ∧
    ∀ out ∈ rest, ∃ packets : List pcapng_epb, out = packets.map .packet

section
variable {N : Type} [DecidableEq N]

/-- The writes for a file that were queued so far. -/
def captures.line (w : captures N) (i : Nat) : List (List block) :=
  meant_for i (w.taken ++ w.awaiting)

/-- What a connection with a role relies on. -/
def Relies (w : captures N) : phase → capture_file N → Prop
  | .creating, fnm => w.disk.names fnm = none ∧ w.writer_.writer.stream_of fnm = none
  | .heading, fnm => ∃ i, w.disk.names fnm = some i ∧ w.line i = []
  | .filling, fnm => ∃ i, w.disk.names fnm = some i ∧ w.line i ≠ []

structure Kept (w : captures N) : Prop where
  pooled : w.writer_.writer.Pooled
  numbered : ∀ fnm i, w.disk.names fnm = some i → i < w.disk.created
  unwritten : ∀ i, w.disk.created ≤ i → w.line i = []
  distinct : ∀ fnm fnm' i, w.disk.names fnm = some i → w.disk.names fnm' = some i → fnm = fnm'
  streams : ∀ fnm o, w.writer_.writer.stream_of fnm = some o →
    w.disk.names fnm = some o.file ∨ w.disk.names fnm = none
  old_stream : w.writer_.writer.stream_of .old = none
  old_queue : ∀ e ∈ w.writer_.task_queue_, e.1 ≠ .old
  lines : ∀ i, w.line i = [] ∨ Headed (w.line i)
  roles : ∀ c p fnm, w.role c = some (p, fnm) → Relies w p fnm
  alone : ∀ c c' p p' fnm, c ≠ c' → w.role c = some (p, fnm) → w.role c' = some (p', fnm) →
    p = .filling
  heads : ∀ fnm i, w.disk.names fnm = some i → w.line i = [] →
    ∃ c, w.role c = some (.heading, fnm)
  flagged : ∀ c args, w.calls c = some (.deciding false, args) →
    (w.logs (w.self_of c)).pcap_header_written = true
  awaited : w.awaiting = w.writer_.task_queue_.map fun e => (w.disk.names e.1, e.2)
  meant : ∀ m ∈ w.taken ++ w.awaiting, m.1 ≠ none
  placed : ∀ i, w.disk.contents i = (meant_for i w.taken).flatten

variable {w w' : captures N}

theorem meant_for_append (i : Nat) (writes writes' : List (Option Nat × List block)) :
    meant_for i (writes ++ writes') = meant_for i writes ++ meant_for i writes' := by
  simp [meant_for]

theorem meant_for_concat (i j : Nat) (writes : List (Option Nat × List block)) (out : List block) :
    meant_for j (writes ++ [(some i, out)]) =
      if j = i then meant_for j writes ++ [out] else meant_for j writes := by
  rw [meant_for_append]
  by_cases hj : j = i
  · simp [meant_for, hj]
  · have hij : ¬ i = j := fun he => hj he.symm
    simp [meant_for, hj, hij]

theorem line_congr (htaken : w'.taken = w.taken) (hawaiting : w'.awaiting = w.awaiting) (i : Nat) :
    w'.line i = w.line i := by
  rw [captures.line, captures.line, htaken, hawaiting]

theorem Kept.proper (h : Kept w) : w.disk.Proper := ⟨h.numbered, h.distinct⟩

theorem capture_of_headed {writes : List (List block)} (h : Headed writes) :
    Capture writes.flatten := by
  obtain ⟨rest, rfl, hrest⟩ := h
  have hpackets : ∃ packets : List pcapng_epb, rest.flatten = packets.map .packet := by
    induction rest with
    | nil => exact ⟨[], rfl⟩
    | cons out rest ih =>
      obtain ⟨ps, hps⟩ := hrest out List.mem_cons_self
      obtain ⟨qs, hqs⟩ := ih fun out' hout' => hrest out' (List.mem_cons_of_mem _ hout')
      exact ⟨ps ++ qs, by rw [List.flatten_cons, hps, hqs, List.map_append]⟩
  obtain ⟨packets, hpackets⟩ := hpackets
  exact ⟨packets, by rw [List.flatten_cons, hpackets]; rfl⟩

/-- The first writes of a line are a line. -/
theorem headed_prefix {writes writes' : List (List block)}
    (h : writes ++ writes' = [] ∨ Headed (writes ++ writes')) : writes = [] ∨ Headed writes := by
  cases writes with
  | nil => exact Or.inl rfl
  | cons out rest =>
    rcases h with hnil | ⟨rest', heq, hrest⟩
    · cases hnil
    · rw [List.cons_append, List.cons.injEq] at heq
      obtain ⟨rfl, rfl⟩ := heq
      exact Or.inr ⟨rest, rfl, fun out hout => hrest out (List.mem_append_left _ hout)⟩

theorem Kept.well_formed (h : Kept w) : WellFormed w := by
  have hbegun : ∀ i, w.disk.contents i = [] ∨ Capture (w.disk.contents i) := by
    intro i
    have hline := h.lines i
    rw [captures.line, meant_for_append] at hline
    rw [h.placed]
    rcases headed_prefix hline with hnil | hheaded
    · exact Or.inl (by rw [hnil]; rfl)
    · exact Or.inr (capture_of_headed hheaded)
  refine ⟨fun _ i _ => hbegun i, fun hidle hempty fnm i hname => ?_, h.meant, h.placed⟩
  have hall : w.line i = meant_for i w.taken := by
    rw [captures.line, h.awaited, hempty, List.map_nil, List.append_nil]
  have hline := h.lines i
  rw [hall] at hline
  rcases hline with hnil | hheaded
  · obtain ⟨c, hc⟩ := h.heads fnm i hname (hall.trans hnil)
    rw [captures.role, hidle c] at hc
    cases hc
  · rw [h.placed]
    exact capture_of_headed hheaded

/-! ## Roles -/

theorem role_congr {c : Nat} (hcall : w'.calls c = w.calls c)
    (hname : w'.filename c = w.filename c) : w'.role c = w.role c := by
  rw [captures.role, captures.role, hcall, hname]

theorem role_none {c : Nat} (hcall : w'.calls c = w.calls c) (h : w.role c = none) :
    w'.role c = none := by
  unfold captures.role at *
  rw [hcall]
  cases hc : w.calls c with
  | none => rfl
  | some call =>
    rw [hc, Option.bind_some, Option.map_eq_none_iff] at h
    rw [Option.bind_some, h]
    rfl

theorem self_on_log {l : Option Nat} {g : PcapLog N → PcapLog N}
    (hsingle : (g (w.logs l)).single_only = (w.logs l).single_only) (c : Nat) :
    (w.on_log l g).self_of c = w.self_of c := by
  have hkeep : ((w.on_log l g).logs (some c)).single_only = (w.logs (some c)).single_only := by
    unfold captures.on_log
    by_cases hl : some c = l
    · subst hl
      simp only [Function.update_self]
      exact hsingle
    · simp only [Function.update_of_ne hl]
  rw [captures.self_of, captures.self_of, hkeep]

theorem logs_on_log {l l' : Option Nat} {g : PcapLog N → PcapLog N} :
    (w.on_log l g).logs l' = if l' = l then g (w.logs l) else w.logs l' :=
  Function.update_apply ..

theorem Relies.keep {p : phase} {fnm : capture_file N} (h : Relies w p fnm)
    (hname : w'.disk.names fnm = w.disk.names fnm)
    (hstream : w.writer_.writer.stream_of fnm = none → w'.writer_.writer.stream_of fnm = none)
    (hline : ∀ i, w'.line i = w.line i) : Relies w' p fnm := by
  cases p with
  | creating => exact ⟨hname.trans h.1, hstream h.2⟩
  | heading => exact h.imp fun i hi => ⟨hname.trans hi.1, (hline i).trans hi.2⟩
  | filling => exact h.imp fun i hi => ⟨hname.trans hi.1, fun he => hi.2 ((hline i).symm.trans he)⟩

/-! ## Steps that only move a call -/

/-- What a step of the connection `c` leaves alone: the roles of the others, and the headers that
were put. -/
structure Beside (w w' : captures N) (c : Nat) : Prop where
  roles : ∀ c', c' ≠ c → w'.role c' = w.role c'
  flagged : ∀ c' args, w'.calls c' = some (.deciding false, args) →
    (w'.logs (w'.self_of c')).pcap_header_written = true

/-- The connection `c` may have the role. -/
structure May (w : captures N) (c : Nat) (p : phase) (fnm : capture_file N) : Prop where
  relies : Relies w p fnm
  others : ∀ c' p', c' ≠ c → w.role c' = some (p', fnm) → p = .filling ∧ p' = .filling

theorem Kept.roles_beside {c : Nat} (h : Kept w) (hbeside : Beside w w' c)
    (hown : ∀ p fnm, w'.role c = some (p, fnm) → Relies w' p fnm)
    (hother : ∀ c' p fnm, c' ≠ c → w.role c' = some (p, fnm) → Relies w p fnm → Relies w' p fnm)
    (c' : Nat) (p : phase) (fnm : capture_file N) (hr : w'.role c' = some (p, fnm)) :
    Relies w' p fnm := by
  by_cases hc : c' = c
  · exact hown p fnm (hc ▸ hr)
  · have hr' := (hbeside.roles c' hc).symm.trans hr
    exact hother c' p fnm hc hr' (h.roles c' p fnm hr')

/-- The connections stay alone with their files, when the role of `c` allows it. -/
theorem Kept.alone_beside {c : Nat} (h : Kept w) (hbeside : Beside w w' c)
    (hothers : ∀ p fnm, w'.role c = some (p, fnm) → ∀ c' p', c' ≠ c → w.role c' = some (p', fnm) →
      p = .filling ∧ p' = .filling) (c₁ c₂ : Nat) (p₁ p₂ : phase) (fnm : capture_file N)
    (hne : c₁ ≠ c₂) (h₁ : w'.role c₁ = some (p₁, fnm)) (h₂ : w'.role c₂ = some (p₂, fnm)) :
    p₁ = .filling := by
  by_cases hc₁ : c₁ = c
  · have hc₂ : c₂ ≠ c := fun he => hne (hc₁.trans he.symm)
    exact (hothers p₁ fnm (hc₁ ▸ h₁) c₂ p₂ hc₂ ((hbeside.roles c₂ hc₂).symm.trans h₂)).1
  · have h₁' := (hbeside.roles c₁ hc₁).symm.trans h₁
    by_cases hc₂ : c₂ = c
    · exact (hothers p₂ fnm (hc₂ ▸ h₂) c₁ p₁ hc₁ h₁').2
    · exact h.alone c₁ c₂ p₁ p₂ fnm hne h₁' ((hbeside.roles c₂ hc₂).symm.trans h₂)

/-- A step that leaves the writer as it is may change the role of its connection to one that it may
have. A header that is to be put stays to be put. -/
theorem Kept.move {c : Nat} (h : Kept w) (hwriter : w'.writer_ = w.writer_)
    (htaken : w'.taken = w.taken) (hawaiting : w'.awaiting = w.awaiting) (hbeside : Beside w w' c)
    (hheading : ∀ fnm, w.role c = some (.heading, fnm) → w'.role c = some (.heading, fnm))
    (hmay : ∀ p fnm, w'.role c = some (p, fnm) → May w c p fnm) : Kept w' := by
  have hdisk : w'.disk = w.disk := by rw [captures.disk, captures.disk, hwriter]
  have hline := line_congr htaken hawaiting
  have hrelies : ∀ p fnm, Relies w p fnm → Relies w' p fnm := fun p fnm hr =>
    hr.keep (by rw [hdisk]) (by rw [hwriter]; exact id) hline
  exact {
    pooled := hwriter ▸ h.pooled
    numbered := hdisk ▸ h.numbered
    unwritten := fun i hi => (hline i).trans (h.unwritten i (hdisk ▸ hi))
    distinct := hdisk ▸ h.distinct
    streams := by
      rw [hwriter, hdisk]
      exact h.streams
    old_stream := hwriter ▸ h.old_stream
    old_queue := hwriter ▸ h.old_queue
    lines := fun i => hline i ▸ h.lines i
    roles := h.roles_beside hbeside (fun p fnm hr => hrelies p fnm (hmay p fnm hr).relies)
      fun _ p fnm _ _ hr => hrelies p fnm hr
    alone := h.alone_beside hbeside fun p fnm hr => (hmay p fnm hr).others
    heads := fun fnm i hname hempty => by
      rw [hdisk] at hname
      obtain ⟨c', hc'⟩ := h.heads fnm i hname ((hline i).symm.trans hempty)
      refine ⟨c', ?_⟩
      by_cases hc : c' = c
      · subst hc
        exact hheading fnm hc'
      · exact (hbeside.roles c' hc).trans hc'
    flagged := hbeside.flagged
    awaited := by
      rw [hawaiting, hwriter, hdisk]
      exact h.awaited
    meant := by
      rw [htaken, hawaiting]
      exact h.meant
    placed := fun i => by
      rw [hdisk, htaken]
      exact h.placed i }

/-! ## Writes -/

theorem headed_append {writes : List (List block)} (h : Headed writes)
    (packets : List pcapng_epb) : Headed (writes ++ [packets.map .packet]) := by
  obtain ⟨rest, rfl, hrest⟩ := h
  refine ⟨rest ++ [packets.map .packet], rfl, fun out hout => ?_⟩
  rcases List.mem_append.mp hout with hout | hout
  · exact hrest out hout
  · exact ⟨packets, List.mem_singleton.mp hout⟩

/-- What a call may put: the header, when that is its role, and packets behind a header. -/
def MayPut (w : captures N) (c : Nat) (out : List block) : Prop :=
  w.role c = some (.heading, w.filename c) ∧ out = [.section_header {}, .interface {}] ∨
    w.role c = some (.filling, w.filename c) ∧
      ∃ packets : List pcapng_epb, out = packets.map .packet

/-- The line of its file may go on with what a call may put. -/
theorem Kept.headed_put {c : Nat} {out : List block} (h : Kept w) (hmay : MayPut w c out) :
    ∃ p i, w.role c = some (p, w.filename c) ∧ w.disk.names (w.filename c) = some i ∧
      Headed (w.line i ++ [out]) := by
  rcases hmay with ⟨hr, rfl⟩ | ⟨hr, packets, rfl⟩
  · obtain ⟨i, hname, hempty⟩ := h.roles c _ _ hr
    exact ⟨_, i, hr, hname, [], by rw [hempty]; rfl, by simp⟩
  · obtain ⟨i, hname, hsome⟩ := h.roles c _ _ hr
    exact ⟨_, i, hr, hname, headed_append ((h.lines i).resolve_left hsome) packets⟩

/-- What another connection relies on stays when the line of a file gets longer. -/
theorem Kept.relies_put {c c' i : Nat} {p p' : phase} {out : List block} {fnm : capture_file N}
    (h : Kept w) (hrole : w.role c = some (p, w.filename c))
    (hname : w.disk.names (w.filename c) = some i) (hdisk : w'.disk = w.disk)
    (hstreams : ∀ fnm, w'.writer_.writer.stream_of fnm = w.writer_.writer.stream_of fnm)
    (hline : ∀ j, w'.line j = if j = i then w.line j ++ [out] else w.line j) (hc : c' ≠ c)
    (hr : w.role c' = some (p', fnm)) (hrelies : Relies w p' fnm) : Relies w' p' fnm := by
  cases p' with
  | creating =>
    rw [Relies, hdisk, hstreams]
    exact hrelies
  | heading =>
    obtain ⟨j, hj, hempty⟩ := hrelies
    have hne : j ≠ i := by
      rintro rfl
      obtain rfl := h.distinct _ _ _ hj hname
      exact absurd (h.alone c' c _ _ _ hc hr hrole) (by decide)
    exact ⟨j, hdisk ▸ hj, by rw [hline, if_neg hne, hempty]⟩
  | filling =>
    obtain ⟨j, hj, hsome⟩ := hrelies
    refine ⟨j, hdisk ▸ hj, ?_⟩
    rw [hline]
    split
    · exact List.append_ne_nil_of_left_ne_nil hsome _
    · exact hsome

theorem Kept.put {c : Nat} {out : List block} (h : Kept w) (hmay : MayPut w c out)
    (hwriter : w'.writer_ = w.writer_.write (w.filename c) out) (htaken : w'.taken = w.taken)
    (hawaiting : w'.awaiting = w.awaiting ++ [(w.disk.names (w.filename c), out)])
    (hbeside : Beside w w' c)
    (hnew : ∀ p fnm, w'.role c = some (p, fnm) → p = .filling ∧ fnm = w.filename c) :
    Kept w' := by
  have hdisk : w'.disk = w.disk := by
    rw [captures.disk, hwriter]
    rfl
  have hstreams : ∀ fnm, w'.writer_.writer.stream_of fnm = w.writer_.writer.stream_of fnm := by
    intro fnm
    rw [hwriter]
    rfl
  have hqueue : w'.writer_.task_queue_ = w.writer_.task_queue_ ++ [(w.filename c, out)] := by
    rw [hwriter]
    rfl
  -- the role of the connection, and what it puts into the line of its file
  obtain ⟨p, i, hrole, hname, hheaded⟩ := h.headed_put hmay
  have hwrites : w'.taken ++ w'.awaiting = w.taken ++ w.awaiting ++ [(some i, out)] := by
    rw [htaken, hawaiting, hname, List.append_assoc]
  have hline : ∀ j, w'.line j = if j = i then w.line j ++ [out] else w.line j := fun j => by
    rw [captures.line, hwrites, meant_for_concat]
    rfl
  have hsame : ∀ j, j ≠ i → w'.line j = w.line j := fun j hj => by rw [hline, if_neg hj]
  have hfilled : w'.line i ≠ [] := by
    rw [hline, if_pos rfl]
    exact List.append_ne_nil_of_right_ne_nil _ (List.cons_ne_nil _ _)
  exact {
    pooled := by
      rw [hwriter]
      exact h.pooled
    numbered := hdisk ▸ h.numbered
    unwritten := fun j hj => by
      rw [hdisk] at hj
      have hlt := h.numbered _ _ hname
      rw [hsame j (by omega)]
      exact h.unwritten j hj
    distinct := hdisk ▸ h.distinct
    streams := fun fnm o ho => by
      rw [hdisk]
      exact h.streams fnm o ((hstreams fnm).symm.trans ho)
    old_stream := (hstreams _).trans h.old_stream
    old_queue := fun e he => by
      rw [hqueue] at he
      rcases List.mem_append.mp he with he | he
      · exact h.old_queue e he
      · rw [List.mem_singleton.mp he]
        exact nofun
    lines := fun j => by
      by_cases hj : j = i
      · rw [hline, if_pos hj, hj]
        exact Or.inr hheaded
      · rw [hsame j hj]
        exact h.lines j
    roles := by
      refine h.roles_beside hbeside (fun p' fnm hr => ?_) fun c' p' fnm hc hr =>
        h.relies_put hrole hname hdisk hstreams hline hc hr
      obtain ⟨rfl, rfl⟩ := hnew p' fnm hr
      exact ⟨i, hdisk ▸ hname, hfilled⟩
    alone := by
      refine h.alone_beside hbeside fun p' fnm hr c' p'' hc hr' => ?_
      obtain ⟨rfl, rfl⟩ := hnew p' fnm hr
      exact ⟨rfl, h.alone c' c p'' p _ hc hr' hrole⟩
    heads := fun fnm j hj hempty => by
      rw [hdisk] at hj
      have hne : j ≠ i := by
        rintro rfl
        exact hfilled hempty
      obtain ⟨c', hc'⟩ := h.heads fnm j hj ((hsame j hne).symm.trans hempty)
      refine ⟨c', (hbeside.roles c' ?_).trans hc'⟩
      rintro rfl
      rw [hrole, Option.some.injEq, Prod.mk.injEq] at hc'
      rw [hc'.2, hj, Option.some.injEq] at hname
      exact hne hname
    flagged := hbeside.flagged
    awaited := by
      rw [hawaiting, hqueue, h.awaited, hdisk, List.map_append]
      rfl
    meant := fun m hm => by
      rw [hwrites] at hm
      rcases List.mem_append.mp hm with hm | hm
      · exact h.meant m hm
      · rw [List.mem_singleton.mp hm]
        exact Option.some_ne_none i
    placed := fun j => by
      rw [hdisk, htaken]
      exact h.placed j }

/-! ## Files -/

theorem role_name {c : Nat} {p : phase} {fnm : capture_file N} (h : w.role c = some (p, fnm)) :
    fnm = w.filename c := by
  unfold captures.role at h
  obtain ⟨call, -, hcall⟩ := Option.bind_eq_some_iff.mp h
  obtain ⟨p', -, heq⟩ := Option.map_eq_some_iff.mp hcall
  exact (Prod.mk.inj heq).2.symm

theorem filename_ne_old (c : Nat) : w.filename c ≠ .old := nofun

theorem not_queued (h : Kept w) {fnm : capture_file N} (hname : w.disk.names fnm = none) :
    ∀ e ∈ w.writer_.task_queue_, e.1 ≠ fnm := by
  rintro e he rfl
  refine h.meant (w.disk.names e.1, e.2) (List.mem_append_right _ ?_) hname
  rw [h.awaited]
  exact List.mem_map_of_mem he

omit [DecidableEq N] in
theorem map_names_congr {queue : List (capture_file N × List block)}
    {names names' : capture_file N → Option Nat} (h : ∀ e ∈ queue, names' e.1 = names e.1) :
    (queue.map fun e => (names' e.1, e.2)) = queue.map fun e => (names e.1, e.2) :=
  List.map_congr_left fun e he => by rw [h e he]

/-- What has fewer streams has none where there was none. -/
theorem no_stream {writer writer' : poolFileWriter (capture_file N) block} {fnm : capture_file N}
    (hless : ∀ o, writer'.stream_of fnm = some o → writer.stream_of fnm = some o)
    (hnone : writer.stream_of fnm = none) : writer'.stream_of fnm = none := by
  refine Option.eq_none_iff_forall_ne_some.mpr fun o ho => ?_
  rw [hless o ho] at hnone
  cases hnone

/-- A stream that is closed is only not there any more. -/
theorem Kept.close (h : Kept w) (fnm : capture_file N) :
    Kept { w with writer_ := w.writer_.base (w.writer_.writer.close fnm).2 } := by
  obtain ⟨hpooled, -, hdisk, hstream⟩ := poolFileWriter.close_spec h.pooled fnm
  set w' : captures N := { w with writer_ := w.writer_.base (w.writer_.writer.close fnm).2 }
  have hdisk' : w'.disk = w.disk := hdisk
  have hless : ∀ g o, w'.writer_.writer.stream_of g = some o →
      w.writer_.writer.stream_of g = some o := by
    intro g o ho
    have hg := (hstream g).symm.trans ho
    split at hg
    · cases hg
    · exact hg
  have hnone : ∀ g, w.writer_.writer.stream_of g = none →
      w'.writer_.writer.stream_of g = none := fun g => no_stream (hless g)
  exact { h with
    pooled := hpooled
    numbered := hdisk' ▸ h.numbered
    unwritten := fun i hi => h.unwritten i (hdisk' ▸ hi)
    distinct := hdisk' ▸ h.distinct
    streams := fun g o ho => by
      rw [hdisk']
      exact h.streams g o (hless g o ho)
    old_stream := hnone _ h.old_stream
    roles := fun c p g hr =>
      (h.roles c p g hr).keep (by rw [hdisk']) (hnone g) fun _ => rfl
    heads := fun g i hg hempty => h.heads g i (hdisk' ▸ hg) hempty
    awaited := by
      rw [hdisk']
      exact h.awaited
    placed := fun i => by
      rw [hdisk']
      exact h.placed i }

/-- A name that nothing is queued for and no connection has a role with may be removed. -/
theorem Kept.remove (h : Kept w) {fnm : capture_file N}
    (hqueue : ∀ e ∈ w.writer_.task_queue_, e.1 ≠ fnm) (hrole : ∀ c p, w.role c ≠ some (p, fnm)) :
    Kept (w.on_disk fun disk => disk.remove fnm) := by
  set w' := w.on_disk fun disk => disk.remove fnm
  have hnames : ∀ g, w'.disk.names g = if g = fnm then none else w.disk.names g :=
    file_system.remove_names
  have hsame : ∀ g, g ≠ fnm → w'.disk.names g = w.disk.names g := fun g hg => by
    rw [hnames, if_neg hg]
  have hproper : w'.disk.Proper := h.proper.remove fnm
  exact { h with
    pooled := ⟨h.pooled.unchecked, h.pooled.named⟩
    numbered := hproper.numbered
    distinct := hproper.distinct
    streams := fun g o ho => by
      by_cases hg : g = fnm
      · exact Or.inr (by rw [hnames, if_pos hg])
      · rw [hsame g hg]
        exact h.streams g o ho
    roles := fun c p g hr => by
      have hg : g ≠ fnm := by
        rintro rfl
        exact hrole c p hr
      exact (h.roles c p g hr).keep (hsame g hg) id fun _ => rfl
    heads := fun g i hg hempty => h.heads g i (file_system.remove_less hg).2 hempty
    awaited := h.awaited.trans (map_names_congr fun e he => hsame e.1 (hqueue e he)).symm }

/-- A file is renamed when it is quiet around it. -/
theorem Kept.rename {c : Nat} (h : Kept w) (hrole : w.role c = none)
    (hquiet : Quiet w c (w.filename c))
    (hqueue : w'.writer_.task_queue_ = w.writer_.task_queue_) (htaken : w'.taken = w.taken)
    (hawaiting : w'.awaiting = w.awaiting) (hpooled : w'.writer_.writer.Pooled)
    (hstreams : ∀ fnm, w'.writer_.writer.stream_of fnm = w.writer_.writer.stream_of fnm)
    (hdisk : w.disk.rename (w.filename c) .old = some w'.disk)
    (hroles : ∀ c', w'.role c' = w.role c') (hflagged : ∀ c' args,
      w'.calls c' = some (.deciding false, args) →
        (w'.logs (w'.self_of c')).pcap_header_written = true) : Kept w' := by
  have hproper := h.proper.rename hdisk
  obtain ⟨i, hname, hcontents, hcreated, hnames⟩ := file_system.rename_spec hdisk
  have hsame : ∀ g, g ≠ w.filename c → g ≠ .old → w'.disk.names g = w.disk.names g :=
    fun g hg hold => by rw [hnames, if_neg hg, if_neg hold]
  have hline := line_congr htaken hawaiting
  have hno_role : ∀ c' p, w.role c' ≠ some (p, w.filename c) := by
    intro c' p hr
    by_cases hc : c' = c
    · rw [hc, hrole] at hr
      cases hr
    · exact hquiet.others c' p hc hr
  exact {
    pooled := hpooled
    numbered := hproper.numbered
    unwritten := fun j hj => (hline j).trans (h.unwritten j (hcreated ▸ hj))
    distinct := hproper.distinct
    streams := fun g o ho => by
      rw [hstreams] at ho
      by_cases hg : g = w.filename c
      · exact Or.inr (by rw [hnames, if_pos hg])
      · have hold : g ≠ .old := by
          rintro rfl
          rw [h.old_stream] at ho
          cases ho
        rw [hsame g hg hold]
        exact h.streams g o ho
    old_stream := (hstreams _).trans h.old_stream
    old_queue := hqueue ▸ h.old_queue
    lines := fun j => hline j ▸ h.lines j
    roles := fun c' p g hr => by
      rw [hroles] at hr
      have hg : g ≠ w.filename c := by
        rintro rfl
        exact hno_role c' p hr
      have hold : g ≠ .old := by
        rw [role_name hr]
        exact filename_ne_old c'
      exact (h.roles c' p g hr).keep (hsame g hg hold) (fun hs => (hstreams g).trans hs) hline
    alone := fun c₁ c₂ p₁ p₂ g hne h₁ h₂ =>
      h.alone c₁ c₂ p₁ p₂ g hne ((hroles c₁).symm.trans h₁) ((hroles c₂).symm.trans h₂)
    heads := fun g j hg hempty => by
      rw [hline] at hempty
      rw [hnames] at hg
      split at hg
      next => cases hg
      next =>
        split at hg
        next =>
          -- a file without a line would have its connection
          cases hg
          obtain ⟨c', hc'⟩ := h.heads _ _ hname hempty
          exact absurd hc' (hno_role c' _)
        next =>
          obtain ⟨c', hc'⟩ := h.heads g j hg hempty
          exact ⟨c', (hroles c').trans hc'⟩
    flagged := hflagged
    awaited := by
      rw [hawaiting, hqueue, h.awaited]
      exact (map_names_congr fun e he =>
        hsame e.1 (hquiet.queued e he) (h.old_queue e he)).symm
    meant := by
      rw [htaken, hawaiting]
      exact h.meant
    placed := fun j => by
      rw [hcontents, htaken]
      exact h.placed j }

/-- The rotation gives no connection another role, and sets no stage. -/
theorem Kept.end_rotation {c : Nat} (h : Kept w) (next_filename : N) (hrole : w.role c = none)
    (hquiet : w.disk.names (w.filename c) ≠ none → Quiet w c (w.filename c)) :
    Kept (w.end_rotation c next_filename) ∧
      (∀ c', (w.end_rotation c next_filename).role c' = w.role c') ∧
      (w.end_rotation c next_filename).calls = w.calls := by
  unfold captures.end_rotation
  cases hname : w.disk.names (w.filename c) with
  | none =>
    simp only [file_system.rename, hname, Option.map_none]
    exact ⟨h, fun _ => trivial, trivial⟩
  | some i =>
    have hq := hquiet (by rw [hname]; exact Option.some_ne_none i)
    obtain ⟨disk, hdisk⟩ : ∃ disk, w.disk.rename (w.filename c) .old = some disk := by
      rw [file_system.rename, hname]
      exact ⟨_, rfl⟩
    simp only [hdisk]
    set w₁ := w.on_disk fun _ => disk
    set g : PcapLog N → PcapLog N := fun self =>
      { self with filename_full := next_filename, stat_bytes_written := 0 }
    have hself : ∀ c', (w₁.on_log (w.self_of c) g).self_of c' = w.self_of c' := fun c' =>
      self_on_log rfl c'
    have hroles : ∀ c', (w₁.on_log (w.self_of c) g).role c' = w.role c' := by
      intro c'
      cases hr : w.role c' with
      | none => exact role_none (w := w) rfl hr
      | some r =>
        obtain ⟨p, fnm⟩ := r
        have hother : w.self_of c' ≠ w.self_of c := by
          intro hsame
          have hfile : w.filename c' = w.filename c := by
            rw [captures.filename, captures.filename, hsame]
          obtain rfl : fnm = w.filename c := (role_name hr).trans hfile
          by_cases hc : c' = c
          · rw [hc, hrole] at hr
            cases hr
          · exact hq.others c' p hc hr
        rw [← hr]
        refine role_congr rfl ?_
        rw [captures.filename, captures.filename, hself, logs_on_log, if_neg hother]
        rfl
    refine ⟨h.rename hrole hq rfl rfl rfl ⟨h.pooled.unchecked, h.pooled.named⟩ (fun _ => rfl)
      hdisk hroles fun c' args hc' => ?_, hroles, rfl⟩
    rw [hself, logs_on_log]
    split
    next hl =>
      have hold := h.flagged c' args hc'
      rw [hl] at hold
      exact hold
    next => exact h.flagged c' args hc'

/-- A missing file is created, and gets a header to be put. -/
theorem Kept.create {c : Nat} (h : Kept w) (hrole : w.role c = some (.creating, w.filename c))
    (hwriter : w'.writer_ = (w.on_disk fun disk => disk.creat (w.filename c)).writer_)
    (htaken : w'.taken = w.taken) (hawaiting : w'.awaiting = w.awaiting) (hbeside : Beside w w' c)
    (hnew : w'.role c = some (.heading, w.filename c)) : Kept w' := by
  obtain ⟨hname, hstream⟩ := h.roles c _ _ hrole
  have hdisk : w'.disk = w.disk.creat (w.filename c) := by
    rw [captures.disk, hwriter]
    rfl
  have hproper := h.proper.creat hname
  obtain ⟨hcreated, hnames, hcontents⟩ := file_system.creat_missing hname
  rw [← hdisk] at hproper hcreated hnames hcontents
  have hempty : w.line w.disk.created = [] := h.unwritten _ (le_refl _)
  have hsame : ∀ g, g ≠ w.filename c → w'.disk.names g = w.disk.names g := fun g hg => by
    rw [hnames, if_neg hg]
  have hstreams : ∀ g, w'.writer_.writer.stream_of g = w.writer_.writer.stream_of g := fun g => by
    rw [hwriter]
    rfl
  have hqueue : w'.writer_.task_queue_ = w.writer_.task_queue_ := by
    rw [hwriter]
    rfl
  have hline := line_congr htaken hawaiting
  -- no other connection has a role with the file
  have halone : ∀ c' p, c' ≠ c → w.role c' ≠ some (p, w.filename c) := fun c' p hc hr =>
    absurd (h.alone c c' _ p _ (Ne.symm hc) hrole hr) (by decide)
  exact {
    pooled := by
      rw [hwriter]
      exact ⟨h.pooled.unchecked, h.pooled.named⟩
    numbered := hproper.numbered
    unwritten := fun j hj => by
      rw [hcreated] at hj
      exact (hline j).trans (h.unwritten j (by omega))
    distinct := hproper.distinct
    streams := fun g o ho => by
      rw [hstreams] at ho
      have hg : g ≠ w.filename c := by
        rintro rfl
        rw [hstream] at ho
        cases ho
      rw [hsame g hg]
      exact h.streams g o ho
    old_stream := (hstreams _).trans h.old_stream
    old_queue := hqueue ▸ h.old_queue
    lines := fun j => hline j ▸ h.lines j
    roles := by
      refine h.roles_beside hbeside (fun p g hr => ?_) fun c' p g hc hr hrelies => ?_
      · rw [hnew, Option.some.injEq, Prod.mk.injEq] at hr
        obtain ⟨rfl, rfl⟩ := hr
        exact ⟨w.disk.created, by rw [hnames, if_pos rfl], (hline _).trans hempty⟩
      · have hg : g ≠ w.filename c := by
          rintro rfl
          exact halone c' p hc hr
        exact hrelies.keep (hsame g hg) (fun hs => (hstreams g).trans hs) hline
    alone := by
      refine h.alone_beside hbeside fun p g hr c' p' hc hr' => ?_
      rw [hnew, Option.some.injEq, Prod.mk.injEq] at hr
      exact absurd (hr.2 ▸ hr') (halone c' p' hc)
    heads := fun g j hg hnone => by
      rw [hline] at hnone
      rw [hnames] at hg
      split at hg
      next hc => exact ⟨c, hc ▸ hnew⟩
      next =>
        obtain ⟨c', hc'⟩ := h.heads g j hg hnone
        refine ⟨c', (hbeside.roles c' ?_).trans hc'⟩
        rintro rfl
        rw [hrole] at hc'
        cases hc'
    flagged := hbeside.flagged
    awaited := by
      rw [hawaiting, hqueue, h.awaited]
      exact (map_names_congr fun e he => hsame e.1 (not_queued h hname e he)).symm
    meant := by
      rw [htaken, hawaiting]
      exact h.meant
    placed := fun j => by
      rw [hcontents, htaken]
      split
      next hj =>
        rw [hj]
        rw [captures.line, meant_for_append, List.append_eq_nil_iff] at hempty
        rw [hempty.1]
        rfl
      next => exact h.placed j }

/-! ## The worker -/

/-- A write for a name that has a file goes to this file, and leaves the names as they are. -/
theorem write_to_file {writer : poolFileWriter (capture_file N) block} {fnm : capture_file N}
    {i : Nat} (buf : List block) (hpooled : writer.Pooled) (hname : writer.disk.names fnm = some i)
    (hstream : ∀ o, writer.stream_of fnm = some o → o.file = i) :
    (writer.write fnm buf).2.Pooled ∧ (writer.write fnm buf).2.disk.names = writer.disk.names ∧
      (writer.write fnm buf).2.disk.created = writer.disk.created ∧
      (∀ j, (writer.write fnm buf).2.disk.contents j =
        writer.disk.contents j ++ if j = i then buf else []) ∧
      ∀ g o, (writer.write fnm buf).2.stream_of g = some o →
        g = fnm ∧ o.file = i ∨ g ≠ fnm ∧ writer.stream_of g = some o := by
  obtain ⟨o, opened, hopened, hwrite⟩ := poolFileWriter.write_spec hpooled fnm buf
  have hfile : o.file = i ∧ opened.disk = writer.disk := by
    rcases hopened.source with ⟨hs, hdisk⟩ | ⟨-, hfile, hdisk⟩
    · exact ⟨hstream o hs, hdisk⟩
    · rw [file_system.open_file, hname] at hfile hdisk
      exact ⟨hfile, hdisk⟩
  have hstreams : ∀ g o', opened.stream_of g = some o' →
      g = fnm ∧ o'.file = i ∨ g ≠ fnm ∧ writer.stream_of g = some o' := by
    intro g o' ho'
    by_cases hg : g = fnm
    · subst hg
      rw [hopened.stream, Option.some.injEq] at ho'
      exact Or.inl ⟨rfl, ho' ▸ hfile.1⟩
    · exact Or.inr ⟨hg, hopened.others g hg o' ho'⟩
  refine ⟨poolFileWriter.write_pooled hpooled fnm buf, ?_⟩
  rw [hwrite]
  by_cases hbuf : buf.isEmpty = true
  · rw [if_pos hbuf, hfile.2]
    refine ⟨rfl, rfl, fun j => ?_, hstreams⟩
    rw [List.isEmpty_iff.mp hbuf, ite_self, List.append_nil]
  · rw [if_neg hbuf]
    have hput : (opened.put o buf).disk = opened.disk.append o.file buf := rfl
    rw [hput, hfile.2]
    refine ⟨rfl, rfl, fun j => ?_, hstreams⟩
    rw [hfile.1, file_system.append]
    by_cases hj : j = i
    · simp only [hj, Function.update_self, if_true]
    · simp only [Function.update_of_ne hj, if_neg hj, List.append_nil]

/-- The worker takes a write to the file that it is meant for. -/
theorem Kept.take (h : Kept w) {fnm : capture_file N} {buf : List block}
    {rest : List (capture_file N × List block)}
    (hqueue : w.writer_.task_queue_ = (fnm, buf) :: rest)
    (hwriter : w'.writer_.writer = (w.writer_.writer.write fnm buf).2)
    (hrest : w'.writer_.task_queue_ = rest) (hlogs : w'.logs = w.logs) (hcalls : w'.calls = w.calls)
    (htaken : w'.taken = w.taken ++ [(w.disk.names fnm, buf)])
    (hawaiting : w'.awaiting = rest.map fun e => (w.disk.names e.1, e.2)) : Kept w' := by
  have hawaited := h.awaited
  rw [hqueue, List.map_cons] at hawaited
  obtain ⟨i, hname⟩ : ∃ i, w.disk.names fnm = some i :=
    Option.ne_none_iff_exists'.mp
      (h.meant _ (List.mem_append_right _ (hawaited ▸ List.mem_cons_self)))
  have hstream : ∀ o, w.writer_.writer.stream_of fnm = some o → o.file = i := by
    intro o ho
    rcases h.streams fnm o ho with hs | hs
    · rw [hname, Option.some.injEq] at hs
      exact hs.symm
    · rw [hname] at hs
      cases hs
  obtain ⟨hpooled, hnames, hcreated, hcontents, hstreams⟩ :=
    write_to_file buf h.pooled hname hstream
  rw [← hwriter] at hpooled hnames hcreated hcontents hstreams
  have hnames' : w'.disk.names = w.disk.names := hnames
  have hwrites : w'.taken ++ w'.awaiting = w.taken ++ w.awaiting := by
    rw [htaken, hawaiting, hawaited, List.append_assoc]
    rfl
  have hline : ∀ j, w'.line j = w.line j := fun j => by
    rw [captures.line, captures.line, hwrites]
  have hfilename : ∀ c, w'.filename c = w.filename c := fun c => by
    rw [captures.filename, captures.filename, captures.self_of, captures.self_of, hlogs]
  have hroles : ∀ c, w'.role c = w.role c := fun c => role_congr (by rw [hcalls]) (hfilename c)
  have hless : ∀ g o, w'.writer_.writer.stream_of g = some o → g ≠ fnm →
      w.writer_.writer.stream_of g = some o := fun g o ho hg =>
    ((hstreams g o ho).resolve_left fun hc => hg hc.1).2
  have hno_stream : ∀ g, g ≠ fnm → w.writer_.writer.stream_of g = none →
      w'.writer_.writer.stream_of g = none := fun g hg =>
    no_stream fun o ho => hless g o ho hg
  exact {
    pooled := hpooled
    numbered := fun g j hg => by
      rw [hnames'] at hg
      exact hcreated ▸ h.numbered g j hg
    unwritten := fun j hj => (hline j).trans (h.unwritten j (hcreated ▸ hj))
    distinct := hnames' ▸ h.distinct
    streams := fun g o ho => by
      rw [hnames']
      rcases hstreams g o ho with ⟨rfl, hfile⟩ | ⟨-, hs⟩
      · exact Or.inl (by rw [hname, hfile])
      · exact h.streams g o hs
    old_stream := by
      refine hno_stream _ (fun he => ?_) h.old_stream
      exact h.old_queue (fnm, buf) (hqueue ▸ List.mem_cons_self) he.symm
    old_queue := fun e he => h.old_queue e (hqueue ▸ List.mem_cons_of_mem _ (hrest ▸ he))
    lines := fun j => hline j ▸ h.lines j
    roles := fun c p g hr => by
      have hrelies := h.roles c p g ((hroles c).symm.trans hr)
      cases p with
      | creating =>
        have hg : g ≠ fnm := by
          rintro rfl
          have hnone : w.disk.names g = none := hrelies.1
          rw [hname] at hnone
          cases hnone
        exact hrelies.keep (by rw [hnames']) (hno_stream g hg) hline
      | heading =>
        exact hrelies.imp fun j hj => ⟨hnames' ▸ hj.1, (hline j).trans hj.2⟩
      | filling =>
        exact hrelies.imp fun j hj => ⟨hnames' ▸ hj.1, (hline j).symm ▸ hj.2⟩
    alone := fun c₁ c₂ p₁ p₂ g hne h₁ h₂ =>
      h.alone c₁ c₂ p₁ p₂ g hne ((hroles c₁).symm.trans h₁) ((hroles c₂).symm.trans h₂)
    heads := fun g j hg hempty => by
      rw [hnames'] at hg
      obtain ⟨c', hc'⟩ := h.heads g j hg ((hline j).symm.trans hempty)
      exact ⟨c', (hroles c').trans hc'⟩
    flagged := fun c args hc => by
      rw [captures.self_of, hlogs]
      exact h.flagged c args (hcalls ▸ hc)
    awaited := by rw [hawaiting, hrest, hnames']
    meant := hwrites ▸ h.meant
    placed := fun j => by
      rw [captures.disk, hcontents, htaken, hname, meant_for_concat]
      change w.disk.contents j ++ _ = _
      rw [h.placed]
      split
      next => rw [List.flatten_append, List.flatten_singleton]
      next => rw [List.append_nil] }

theorem Kept.work (h : Kept w) (hs : w.work = some w') : Kept w' := by
  unfold captures.work at hs
  cases hworker : w.writer_.worker_thread_ with
  | testing =>
    simp only [threadedPoolFileWriter.worker, hworker, Option.map_some, reduceCtorEq, if_false,
      Option.some.injEq] at hs
    subst hs
    exact { h with }
  | taking =>
    cases hqueue : w.writer_.task_queue_ with
    | nil =>
      have hnothing : w.awaiting = [] := by rw [h.awaited, hqueue, List.map_nil]
      have htail : w.awaiting.tail = w.awaiting := by rw [hnothing, List.tail_nil]
      have hhead : w.taken ++ w.awaiting.head?.toList = w.taken := by
        rw [hnothing, List.head?_nil, Option.toList_none, List.append_nil]
      have hwork : w.writer_.worker = some { w.writer_ with worker_thread_ := .testing } := by
        simp only [threadedPoolFileWriter.worker, hworker, hqueue]
      rw [hwork, Option.map_some, if_pos hworker, Option.some.injEq, htail, hhead] at hs
      subst hs
      exact { h with }
    | cons e rest =>
      obtain ⟨fnm, buf⟩ := e
      have hawaited := h.awaited
      rw [hqueue, List.map_cons] at hawaited
      simp only [threadedPoolFileWriter.worker, hworker, hqueue, hawaited, Option.map_some, if_true,
        Option.some.injEq, List.tail_cons, List.head?_cons, Option.toList_some] at hs
      subst hs
      exact h.take hqueue rfl rfl rfl rfl rfl rfl
  | gone =>
    simp only [threadedPoolFileWriter.worker, hworker, Option.map_none, reduceCtorEq] at hs

/-! ## The steps of a call -/

/-- A change that keeps the names of the logs, and the headers that they put. -/
structure SameLogs (w w' : captures N) : Prop where
  name : ∀ l, (w'.logs l).filename_full = (w.logs l).filename_full
  single : ∀ l, (w'.logs l).single_only = (w.logs l).single_only
  header : ∀ l, (w.logs l).pcap_header_written = true → (w'.logs l).pcap_header_written = true

theorem SameLogs.of_eq (h : w'.logs = w.logs) : SameLogs w w' := by
  refine ⟨fun l => ?_, fun l => ?_, fun l hl => ?_⟩ <;> rw [h]
  exact hl

theorem SameLogs.trans {w'' : captures N} (h : SameLogs w w') (h' : SameLogs w' w'') :
    SameLogs w w'' where
  name := fun l => (h'.name l).trans (h.name l)
  single := fun l => (h'.single l).trans (h.single l)
  header := fun l hl => h'.header l (h.header l hl)

theorem SameLogs.of_update {l : Option Nat} {self : PcapLog N}
    (hlogs : w'.logs = Function.update w.logs l self)
    (hname : self.filename_full = (w.logs l).filename_full)
    (hsingle : self.single_only = (w.logs l).single_only)
    (hheader : (w.logs l).pcap_header_written = true → self.pcap_header_written = true) :
    SameLogs w w' := by
  have heq : ∀ l', w'.logs l' = if l' = l then self else w.logs l' := fun l' => by
    rw [hlogs, Function.update_apply]
  refine ⟨fun l' => ?_, fun l' => ?_, fun l' hl' => ?_⟩ <;> rw [heq] <;> split
  · next hl => rw [hl, hname]
  · rfl
  · next hl => rw [hl, hsingle]
  · rfl
  · next hl => exact hheader (hl ▸ hl')
  · exact hl'

theorem SameLogs.self (h : SameLogs w w') (c : Nat) : w'.self_of c = w.self_of c := by
  rw [captures.self_of, captures.self_of, h.single]

theorem SameLogs.filename (h : SameLogs w w') (c : Nat) : w'.filename c = w.filename c := by
  rw [captures.filename, captures.filename, h.self, h.name]

/-- A change of logs that keeps their names and headers, and no other change. -/
structure OnlyLogs (w w' : captures N) : Prop extends SameLogs w w' where
  writer : w'.writer_ = w.writer_
  taken : w'.taken = w.taken
  awaiting : w'.awaiting = w.awaiting
  calls : w'.calls = w.calls

theorem OnlyLogs.refl (w : captures N) : OnlyLogs w w :=
  ⟨SameLogs.of_eq rfl, rfl, rfl, rfl, rfl⟩

theorem OnlyLogs.on_log {l : Option Nat} {g : PcapLog N → PcapLog N}
    (hname : (g (w.logs l)).filename_full = (w.logs l).filename_full)
    (hsingle : (g (w.logs l)).single_only = (w.logs l).single_only)
    (hheader : (w.logs l).pcap_header_written = true →
      (g (w.logs l)).pcap_header_written = true) : OnlyLogs w (w.on_log l g) :=
  ⟨SameLogs.of_update rfl hname hsingle hheader, rfl, rfl, rfl, rfl⟩

theorem Kept.beside {c : Nat} (h : Kept w) (hlogs : SameLogs w w')
    (hcalls : ∀ c', c' ≠ c → w'.calls c' = w.calls c')
    (hnew : ∀ args, w'.calls c = some (.deciding false, args) →
      (w.logs (w.self_of c)).pcap_header_written = true) : Beside w w' c := by
  refine ⟨fun c' hc => role_congr (hcalls c' hc) (hlogs.filename c'), fun c' args hc' => ?_⟩
  rw [hlogs.self]
  refine hlogs.header _ ?_
  by_cases hc : c' = c
  · subst hc
    exact hnew args hc'
  · exact h.flagged c' args ((hcalls c' hc).symm.trans hc')

theorem Kept.may {c : Nat} {p : phase} {fnm : capture_file N} (h : Kept w)
    (hrole : w.role c = some (p, fnm)) : May w c p fnm where
  relies := h.roles c p fnm hrole
  others := fun c' p' hc hr => ⟨h.alone c c' p p' fnm (Ne.symm hc) hrole hr,
    h.alone c' c p' p fnm hc hr hrole⟩

section
variable {c : Nat} {args : write_args N} {call : Option (write_stage × write_args N)}

theorem calls_at (w : captures N) : (w.at_stage c call).calls c = call :=
  Function.update_self ..

theorem calls_at_ne (w : captures N) {c' : Nat} (hc : c' ≠ c) :
    (w.at_stage c call).calls c' = w.calls c' :=
  Function.update_of_ne hc ..

/-- The phase of a call, if it has one. -/
def phase_in (call : Option (write_stage × write_args N)) : Option phase :=
  call.bind fun call => phase_of call.1

theorem role_eq (w : captures N) (c : Nat) :
    w.role c = (phase_in (w.calls c)).map fun p => (p, w.filename c) := by
  unfold captures.role phase_in
  cases w.calls c <;> rfl

/-- A step without a change of files puts its call at another stage. -/
theorem Kept.to_stage (h : Kept w) (hlogs : OnlyLogs w w')
    (hnew : ∀ args, call = some (.deciding false, args) →
      (w.logs (w.self_of c)).pcap_header_written = true)
    (hheading : phase_in (w.calls c) = some .heading → phase_in call = some .heading)
    (hmay : ∀ p, phase_in call = some p → May w c p (w.filename c)) :
    Kept (w'.at_stage c call) := by
  have hlogs' : SameLogs w (w'.at_stage c call) := hlogs.toSameLogs.trans (SameLogs.of_eq rfl)
  have hrole : (w'.at_stage c call).role c = (phase_in call).map fun p => (p, w.filename c) := by
    rw [role_eq, calls_at, hlogs'.filename]
  refine h.move (c := c) hlogs.writer hlogs.taken hlogs.awaiting
    (h.beside hlogs' (fun c' hc => ?_) fun args' hc => ?_) (fun fnm hr => ?_) fun p fnm hr => ?_
  · rw [calls_at_ne _ hc, hlogs.calls]
  · rw [calls_at] at hc
    exact hnew args' hc
  · rw [role_eq, Option.map_eq_some_iff] at hr
    obtain ⟨p, hp, heq⟩ := hr
    obtain ⟨rfl, rfl⟩ := Prod.mk.inj heq
    rw [hrole, hheading hp]
    rfl
  · rw [hrole, Option.map_eq_some_iff] at hr
    obtain ⟨p', hp, heq⟩ := hr
    obtain ⟨rfl, rfl⟩ := Prod.mk.inj heq
    exact hmay p' hp

/-- A step of a call that keeps its phase, or ends it behind the header. -/
theorem Kept.same_phase (h : Kept w) (hlogs : OnlyLogs w w')
    (hnew : ∀ args, call ≠ some (.deciding false, args))
    (hphase : phase_in call = phase_in (w.calls c) ∨
      phase_in call = none ∧ phase_in (w.calls c) ≠ some .heading) :
    Kept (w'.at_stage c call) := by
  refine h.to_stage hlogs (fun args hc => absurd hc (hnew args)) (fun hp => ?_) fun p hp => ?_
  · rcases hphase with hsame | ⟨-, hnot⟩
    · exact hsame.trans hp
    · exact absurd hp hnot
  · rcases hphase with hsame | ⟨hnone, -⟩
    · refine h.may ?_
      rw [role_eq, ← hsame, hp]
      rfl
    · rw [hnone] at hp
      cases hp

/-- A change of logs that keeps their names and headers. -/
theorem Kept.same_logs (h : Kept w) (hlogs : OnlyLogs w w') : Kept w' := by
  have hsame : w'.at_stage 0 (w.calls 0) = w' := by
    rw [captures.at_stage, ← hlogs.calls, Function.update_eq_self]
  rw [← hsame]
  exact h.to_stage hlogs (h.flagged 0) id fun p hp => h.may (by rw [role_eq, hp]; rfl)

theorem Kept.on_log {l : Option Nat} {g : PcapLog N → PcapLog N} (h : Kept w)
    (hname : (g (w.logs l)).filename_full = (w.logs l).filename_full)
    (hsingle : (g (w.logs l)).single_only = (w.logs l).single_only)
    (hheader : (w.logs l).pcap_header_written = true →
      (g (w.logs l)).pcap_header_written = true) : Kept (w.on_log l g) :=
  h.same_logs (.on_log hname hsingle hheader)

/-- The rotation up to `close`. -/
theorem Kept.begin_rotation (h : Kept w) : Kept (w.begin_rotation c) := by
  have hremoved := h.remove h.old_queue fun c' p hr => filename_ne_old c' (role_name hr).symm
  exact Kept.on_log (l := w.self_of c) (g := fun self => { self with rotate_now := false })
    (hremoved.close (w.filename c)) rfl rfl id

theorem Kept.prepare (h : Kept w) (hcall : w.calls c = some (.preparing, args))
    (hs : w.go_on c = some w') : Kept w' := by
  have hphase : phase_in (w.calls c) = none := by rw [hcall]; rfl
  have hlook : ∀ {w₁ : captures N}, Kept w₁ → w₁.calls = w.calls → ∀ stage : write_stage,
      phase_of stage = none → Kept (w₁.at_stage c (some (stage, args))) := by
    intro w₁ h₁ hcalls stage hstage
    refine h₁.same_phase (.refl w₁) (fun args' hc => ?_) (Or.inl ?_)
    · rw [Option.some.injEq, Prod.mk.injEq] at hc
      rw [hc.1] at hstage
      cases hstage
    · rw [hcalls, hphase]
      exact hstage
  have hquota := h.on_log (l := w.self_of c)
    (g := fun self => { self with stat_bytes_quota := self.quota }) rfl rfl id
  simp only [captures.go_on, hcall] at hs
  split_ifs at hs <;> cases hs
  · exact hlook hquota.begin_rotation rfl _ rfl
  · exact hlook hquota rfl _ rfl
  · exact hlook h rfl _ rfl

theorem Kept.look (h : Kept w) (hcall : w.calls c = some (.looking, args))
    (hmissing : w.disk.names (w.filename c) = none → Quiet w c (w.filename c))
    (hfound : w.disk.names (w.filename c) ≠ none →
      (w.logs (w.self_of c)).pcap_header_written = true ∧
        ∀ c', c' ≠ c → w.role c' ≠ some (.heading, w.filename c))
    (hs : w.go_on c = some w') : Kept w' := by
  have hphase : phase_in (w.calls c) = none := by rw [hcall]; rfl
  have hrole : w.role c = none := by rw [role_eq, hphase]; rfl
  simp only [captures.go_on, hcall, poolFileWriter.recreate, file_system.file_exists] at hs
  cases hname : w.disk.names (w.filename c) with
  | none =>
    have hname' : w.writer_.writer.disk.names (w.filename c) = none := hname
    simp only [hname', Option.isSome_none, Bool.false_eq_true, if_false, Option.some.injEq] at hs
    subst hs
    have hquiet := hmissing hname
    obtain ⟨-, -, hdisk, hstream⟩ := poolFileWriter.close_spec h.pooled (w.filename c)
    refine (h.close (w.filename c)).to_stage (.refl _) (by simp)
      (fun hp => absurd (hphase.symm.trans hp) (by simp)) fun p hp => ?_
    obtain rfl : phase.creating = p := Option.some.inj hp
    refine ⟨⟨?_, ?_⟩, fun c' p' hc hr => absurd hr (hquiet.others c' p' hc)⟩
    · exact (congrArg (fun d => file_system.names d (w.filename c)) hdisk).trans hname
    · exact (hstream _).trans (if_pos rfl)
  | some i =>
    have hname' : w.writer_.writer.disk.names (w.filename c) = some i := hname
    simp only [hname', Option.isSome_some, if_true, Option.some.injEq] at hs
    subst hs
    obtain ⟨hheader, hnone⟩ := hfound (by rw [hname]; exact Option.some_ne_none i)
    refine h.to_stage (.on_log rfl rfl id) (fun _ _ => hheader)
      (fun hp => absurd (hphase.symm.trans hp) (by simp)) fun p hp => ?_
    obtain rfl : phase.filling = p := Option.some.inj hp
    refine ⟨⟨i, hname, fun hempty => ?_⟩, fun c' p' hc hr => ⟨rfl, ?_⟩⟩
    · obtain ⟨c', hc'⟩ := h.heads _ i hname hempty
      by_cases hc : c' = c
      · rw [hc, hrole] at hc'
        cases hc'
      · exact hnone c' hc hc'
    · cases p' with
      | creating =>
        have hmiss : w.disk.names (w.filename c) = none := (h.roles c' _ _ hr).1
        rw [hname] at hmiss
        cases hmiss
      | heading => exact absurd hr (hnone c' hc)
      | filling => rfl

theorem put_same_logs (w : captures N) (c : Nat) (out : List block) : SameLogs w (w.put c out) :=
  SameLogs.of_update rfl rfl rfl id

/-- A step that queues a write, and puts its call behind the header. -/
theorem Kept.put_to {out : List block} (h : Kept w) (hmay : MayPut w c out)
    (hlogs : OnlyLogs (w.put c out) w') (hnew : ∀ args, call ≠ some (.deciding false, args))
    (hphase : ∀ p, phase_in call = some p → p = .filling) : Kept (w'.at_stage c call) := by
  have hlogs' : SameLogs w (w'.at_stage c call) :=
    (put_same_logs w c out).trans (hlogs.toSameLogs.trans (SameLogs.of_eq rfl))
  refine h.put hmay hlogs.writer hlogs.taken hlogs.awaiting
    (h.beside hlogs' (fun c' hc => ?_) fun args' hc => ?_) fun p fnm hr => ?_
  · rw [calls_at_ne _ hc, hlogs.calls]
    rfl
  · rw [calls_at] at hc
    exact absurd hc (hnew args')
  · rw [role_eq, calls_at, hlogs'.filename, Option.map_eq_some_iff] at hr
    obtain ⟨p', hp, heq⟩ := hr
    obtain ⟨rfl, rfl⟩ := Prod.mk.inj heq
    exact ⟨hphase p' hp, rfl⟩

/-- A call behind its look at the file. -/
theorem Kept.go_behind {stage : write_stage} {p : phase} (h : Kept w)
    (hcall : w.calls c = some (stage, args)) (hstage : phase_of stage = some p)
    (hs : w.go_on c = some w') : Kept w' := by
  have hphase : phase_in (w.calls c) = some p := by rw [hcall]; exact hstage
  have hrole : w.role c = some (p, w.filename c) := by rw [role_eq, hphase]; rfl
  cases stage with
  | locking => cases hstage
  | preparing => cases hstage
  | moving => cases hstage
  | looking => cases hstage
  | creating =>
    obtain rfl : phase.creating = p := Option.some.inj hstage
    simp only [captures.go_on, hcall, Option.some.injEq] at hs
    subst hs
    have hlogs : SameLogs w ((w.on_disk fun disk => disk.creat (w.filename c)).on_log (w.self_of c)
        fun self => { self with fs_lock_ := false, stat_bytes_written := 0 }) :=
      SameLogs.of_update rfl rfl rfl id
    refine h.create hrole rfl rfl rfl (h.beside (hlogs.trans (SameLogs.of_eq rfl))
      (fun c' hc => calls_at_ne _ hc) fun args' hc => ?_) ?_
    · rw [calls_at] at hc
      cases hc
    · rw [role_eq, calls_at]
      exact congrArg (fun fnm => some (phase.heading, fnm)) (hlogs.filename c)
  | deciding is_recreated =>
    cases is_recreated with
    | true =>
      simp only [captures.go_on, hcall, Bool.or_true, if_true, Option.some.injEq] at hs
      subst hs
      exact h.same_phase (.refl w) (by simp) (Or.inl (by rw [hcall]; rfl))
    | false =>
      simp only [captures.go_on, hcall, h.flagged c args hcall, Bool.not_true, Bool.or_false,
        Bool.false_eq_true, if_false, Option.some.injEq] at hs
      subst hs
      exact h.same_phase (.refl w) (by simp) (Or.inl (by rw [hcall]; rfl))
  | heading =>
    obtain rfl : phase.heading = p := Option.some.inj hstage
    simp only [captures.go_on, hcall, Option.some.injEq] at hs
    subst hs
    exact h.put_to (Or.inl ⟨hrole, rfl⟩) (.on_log rfl rfl fun _ => rfl) (by simp) fun p hp => (Option.some.inj hp).symm
  | starting =>
    obtain rfl : phase.filling = p := Option.some.inj hstage
    simp only [captures.go_on, hcall] at hs
    split_ifs at hs <;> cases hs
    · exact h.put_to (Or.inr ⟨hrole, args.handshake, rfl⟩) (.on_log rfl rfl id) (by simp) fun p hp => (Option.some.inj hp).symm
    · exact h.same_phase (.refl w) (by simp) (Or.inl (by rw [hcall]; rfl))
  | putting =>
    obtain rfl : phase.filling = p := Option.some.inj hstage
    simp only [captures.go_on, hcall] at hs
    split_ifs at hs <;> cases hs
    · refine h.same_phase (.refl w) (by simp) (Or.inr ⟨rfl, ?_⟩)
      rw [hphase]
      decide
    · exact h.put_to (Or.inr ⟨hrole, args.frames, rfl⟩) (.refl _) (by simp) (by simp [phase_in])

theorem Kept.go_on (h : Kept w) (hcare : Careful w (.go_on c)) (hs : w.go_on c = some w') :
    Kept w' := by
  cases hcall : w.calls c with
  | none => simp only [captures.go_on, hcall, reduceCtorEq] at hs
  | some call =>
    obtain ⟨stage, args⟩ := call
    obtain ⟨hrename, hmissing, hfound⟩ := hcare stage args hcall
    cases hphase : phase_of stage with
    | some p => exact h.go_behind hcall hphase hs
    | none =>
      have hnone : phase_in (w.calls c) = none := by rw [hcall]; exact hphase
      cases stage with
      | locking =>
        simp only [captures.go_on, hcall] at hs
        split_ifs at hs
        cases hs
        exact h.same_phase (.on_log rfl rfl id) (by simp) (Or.inl hnone.symm)
      | preparing => exact h.prepare hcall hs
      | moving =>
        simp only [captures.go_on, hcall, Option.some.injEq] at hs
        subst hs
        obtain ⟨hrotated, -, hcalls⟩ := h.end_rotation args.next_filename
          (by rw [role_eq, hnone]; rfl) (hrename rfl)
        refine hrotated.same_phase (.refl _) (by simp) (Or.inl ?_)
        rw [hcalls, hnone]
        rfl
      | looking => exact h.look hcall (hmissing rfl) (hfound rfl) hs
      | creating => cases hphase
      | deciding is_recreated => cases is_recreated <;> cases hphase
      | heading => cases hphase
      | starting => cases hphase
      | putting => cases hphase

end

/-! ## Runs -/

theorem Kept.step {a : capture_event N} (h : Kept w) (hcare : Careful w a)
    (hs : w.step a = some w') : Kept w' := by
  cases a with
  | write c args =>
    simp only [captures.step] at hs
    split_ifs at hs with hidle
    cases hs
    rw [Option.not_isSome_iff_eq_none] at hidle
    refine h.same_phase (.refl w) (by simp) (Or.inl ?_)
    rw [hidle]
    rfl
  | go_on c => exact h.go_on hcare hs
  | worker => exact h.work hs
  | removed fnm =>
    cases hs
    exact h.remove hcare.1 hcare.2
  | rotate l =>
    cases hs
    exact h.on_log rfl rfl id
  | set_quota l n =>
    cases hs
    exact h.on_log rfl rfl id

theorem new_kept (logs : Option Nat → N × next_proto × Bool) : Kept (captures.new logs) where
  pooled := ⟨rfl, nofun⟩
  numbered := nofun
  unwritten := fun _ _ => rfl
  distinct := nofun
  streams := nofun
  old_stream := rfl
  old_queue := nofun
  lines := fun _ => Or.inl rfl
  roles := nofun
  alone := nofun
  heads := nofun
  flagged := nofun
  awaited := rfl
  meant := nofun
  placed := fun _ => rfl

end

/-- In a run that is careful, each capture file is well-formed, and each block comes to the file
that it is meant for. -/
theorem careful_captures_are_well_formed {N : Type} [DecidableEq N]
    (logs : Option Nat → N × next_proto × Bool) (events : List (capture_event N))
    (hcareful : Meets captures.step Careful (captures.new logs) events) :
    Always captures.step WellFormed (captures.new logs) events :=
  (always_of_meets (fun _ _ _ h hc hs => h.step hc hs) (new_kept logs) hcareful).mono
    fun _ h => h.well_formed

/-! ## One connection alone -/

section
variable {N : Type} [DecidableEq N] {w w' : captures N} {c : Nat}

/-- What is careful at a stage when no other connection writes: a rename, or a look that misses the
file, waits until nothing is queued for the name, and a file that is there has its header. -/
def StageAlone (c : Nat) (w : captures N) : write_stage → Prop
  | .moving => ∀ e ∈ w.writer_.task_queue_, e.1 ≠ w.filename c
  | .looking =>
    if (w.disk.names (w.filename c)).isNone then
      ∀ e ∈ w.writer_.task_queue_, e.1 ≠ w.filename c
    else (w.logs (w.self_of c)).pcap_header_written = true
  | _ => True

instance (c : Nat) (w : captures N) (stage : write_stage) : Decidable (StageAlone c w stage) := by
  cases stage <;> unfold StageAlone <;> infer_instance

def CarefulAlone (c : Nat) (w : captures N) : capture_event N → Prop
  | .write c' _ => c' = c
  | .go_on c' => c' = c ∧ ∀ call ∈ w.calls c, StageAlone c w call.1
  | .removed _ => False
  | .worker | .rotate _ | .set_quota _ _ => True

instance (c : Nat) (w : captures N) : (e : capture_event N) → Decidable (CarefulAlone c w e)
  | .write c' _ => inferInstanceAs (Decidable (c' = c))
  | .go_on c' => inferInstanceAs (Decidable (c' = c ∧ ∀ call ∈ w.calls c, StageAlone c w call.1))
  | .removed _ => isFalse nofun
  | .worker | .rotate _ | .set_quota _ _ => isTrue trivial

theorem end_rotation_calls (next_filename : N) :
    (w.end_rotation c next_filename).calls = w.calls := by
  unfold captures.end_rotation
  split
  · rfl
  · rfl

/-- A step of one call leaves the other calls alone. -/
theorem go_on_calls (hs : w.go_on c = some w') {c' : Nat} (hc : c' ≠ c) :
    w'.calls c' = w.calls c' := by
  have hstage : ∃ w₁ call, w' = captures.at_stage w₁ c call ∧ w₁.calls = w.calls := by
    unfold captures.go_on at hs
    split at hs
    · cases hs
    next stage args hcall =>
      cases stage <;> simp only at hs
      case moving =>
        obtain rfl := Option.some.inj hs
        exact ⟨_, _, rfl, end_rotation_calls args.next_filename⟩
      all_goals
        repeat' split at hs
        all_goals
          first
          | (obtain rfl := Option.some.inj hs
             exact ⟨_, _, rfl, rfl⟩)
          | cases hs
  obtain ⟨w₁, call, rfl, hcalls⟩ := hstage
  rw [calls_at_ne _ hc, hcalls]

theorem careful_of_alone (hidle : ∀ c', c' ≠ c → w.calls c' = none) {e : capture_event N}
    (he : CarefulAlone c w e) : Careful w e := by
  have hrole : ∀ c' p fnm, c' ≠ c → w.role c' ≠ some (p, fnm) := by
    intro c' p fnm hc hr
    rw [captures.role, hidle c' hc] at hr
    cases hr
  have hquiet : (∀ e ∈ w.writer_.task_queue_, e.1 ≠ w.filename c) → Quiet w c (w.filename c) :=
    fun hqueued => ⟨hqueued, fun c' p hc => hrole c' p _ hc⟩
  cases e with
  | go_on c' =>
    obtain ⟨rfl, hstage⟩ := he
    intro stage args hcall
    have hstage := hstage (stage, args) hcall
    refine ⟨?_, ?_, ?_⟩
    · rintro rfl -
      exact hquiet hstage
    · rintro rfl hname
      simp only [StageAlone, hname, Option.isNone_none, if_true] at hstage
      exact hquiet hstage
    · rintro rfl hname
      have hsome : (w.disk.names (w.filename c')).isNone = false := by
        simpa [Option.isSome_iff_ne_none] using hname
      simp only [StageAlone, hsome, Bool.false_eq_true, if_false] at hstage
      exact ⟨hstage, fun c' hc => hrole c' _ _ hc⟩
  | removed fnm => exact he.elim
  | write c' args => trivial
  | worker => trivial
  | rotate l => trivial
  | set_quota l n => trivial

/-- The other connections stay without a call. -/
theorem alone_step (hidle : ∀ c', c' ≠ c → w.calls c' = none) {e : capture_event N}
    (he : CarefulAlone c w e) (hs : w.step e = some w') : ∀ c', c' ≠ c → w'.calls c' = none := by
  intro c' hc
  cases e with
  | write d args =>
    obtain rfl : d = c := he
    simp only [captures.step] at hs
    split at hs
    · cases hs
    · obtain rfl := Option.some.inj hs
      rw [calls_at_ne _ hc, hidle c' hc]
  | go_on d =>
    obtain ⟨rfl, -⟩ := he
    rw [go_on_calls hs hc, hidle c' hc]
  | worker =>
    obtain ⟨writer_, -, rfl⟩ := Option.map_eq_some_iff.mp hs
    split
    · exact hidle c' hc
    · exact hidle c' hc
  | removed fnm => exact he.elim
  | rotate l =>
    obtain rfl := Option.some.inj hs
    exact hidle c' hc
  | set_quota l n =>
    obtain rfl := Option.some.inj hs
    exact hidle c' hc

theorem careful_run_of_alone {events : List (capture_event N)}
    (hidle : ∀ c', c' ≠ c → w.calls c' = none)
    (h : Meets captures.step (CarefulAlone c) w events) : Meets captures.step Careful w events := by
  induction events generalizing w with
  | nil => trivial
  | cons e rest ih =>
    intro w' hs
    obtain ⟨he, hrest⟩ := h w' hs
    exact ⟨careful_of_alone hidle he, ih (alone_step hidle he hs) hrest⟩

end

/-- All connections write to the single file. -/
def single_logs : Option Nat → Nat × next_proto × Bool :=
  fun _ => (0, .TCP, true)

/-- A write of one frame, behind the handshake. -/
def one_frame (next_filename : Nat) : write_args Nat where
  handshake := [{}, {}, {}]
  frames := [{}]
  next_filename := next_filename

/-- A first write makes its file, which the worker fills. Then the file is rotated, and a second write
makes the next one. -/
def written_twice : List (capture_event Nat) :=
  [.write 0 (one_frame 1)] ++ List.replicate 8 (.go_on 0) ++ List.replicate 9 .worker ++
    [.rotate none, .write 0 (one_frame 1)] ++ List.replicate 9 (.go_on 0) ++
    List.replicate 6 .worker

theorem two_writes_are_well_formed :
    Always captures.step WellFormed (captures.new single_logs) written_twice :=
  careful_captures_are_well_formed single_logs _
    (careful_run_of_alone (c := 0) (fun _ _ => rfl) (by decide +kernel))

/-- A first write is queued as a whole, and the next one rotates its file before the worker takes
the header. -/
def rotated_while_queued : List (capture_event Nat) :=
  [.write 0 (one_frame 1)] ++ List.replicate 8 (.go_on 0) ++ [.rotate none] ++
    [.write 0 (one_frame 1)] ++ List.replicate 3 (.go_on 0) ++ List.replicate 2 .worker

/-- A rotation while a first write is queued: the worker makes a new file of the name that was
rotated away, and puts the header there. -/
theorem a_queued_header_misses_its_file :
    ¬ ∀ (logs : Option Nat → Nat × next_proto × Bool) (events : List (capture_event Nat)),
      Always captures.step WellFormed (captures.new logs) events := by
  intro hall
  have hrun : (exec captures.step (captures.new single_logs) rotated_while_queued).map
      (fun w => ((w.disk.contents 0).length, (meant_for 0 w.taken).flatten.length)) =
      some (0, 2) := by decide +kernel
  obtain ⟨w, hw, hend⟩ := Option.map_eq_some_iff.mp hrun
  rw [Prod.mk.injEq] at hend
  obtain ⟨hcontents, htaken⟩ := hend
  rw [(always_exec (hall _ _) hw).placed, htaken] at hcontents
  cases hcontents

end socle.traflog
