-- The writer of one file (traflog/filewriter.cpp), and the lines that a log writes
-- with it (traflog/smcaplog.cpp). `open` gives up when `chmod` succeeds.
import Socle.Lib.Run
import Socle.PoolWriter

namespace socle.traflog

open lib.run

variable {β : Type}

/-! ## Model -/

/-- `fileWriter`, with the file system. A stream has no file when it could not be opened, or was
closed. -/
structure fileWriter (β : Type) where
  writer : Option (Option Nat) := none
  opened : Bool := false
  filename : String := ""
  disk : file_system String β := {}

namespace fileWriter

/-- `close`. The stream stays, without a file. -/
def close (w : fileWriter β) : fileWriter β :=
  match w.writer with
  | none => { w with opened := false }
  | some _ => { w with opened := false, writer := some none, filename := "" }

/-- `open`. `is_open` is that the stream can be opened, `chmod` that `chmod` returns 0. -/
def open_ (fnm : String) (is_open chmod : Bool) (w : fileWriter β) : Bool × fileWriter β :=
  match w.writer with
  | some _ => (true, w)
  | none =>
    if fnm = "" then (false, w)
    else
      let (stream, disk) :=
        if is_open then
          let (i, disk) := w.disk.open_file fnm
          (some i, disk)
        else (none, w.disk)
      let w := { w with writer := some stream, disk := disk }
      if chmod then (false, w.close)
      else if stream.isSome then (true, { w with filename := fnm, opened := true })
      else (false, w.close)

/-- `write`, of a string or of a buffer. A stream without a file takes the data, and fails. -/
def write (data : List β) (w : fileWriter β) : Nat × fileWriter β :=
  match w.writer with
  | none => (0, w)
  | some none => (data.length, w)
  | some (some i) => (data.length, { w with disk := w.disk.append i data })

def flush (w : fileWriter β) : Bool :=
  w.writer.isSome

end fileWriter

/-- `SmcapLog::write`: the file is opened when it is not, and the line is written when it is. -/
def SmcapLog.write (fnm : String) (is_open chmod : Bool) (line : List β) (w : fileWriter β) :
    fileWriter β :=
  let w := if w.opened then w else (w.open_ fnm is_open chmod).2
  if w.opened then (w.write line).2 else w

inductive fileWriter.action (β : Type)
  | open_ (fnm : String) (is_open chmod : Bool)
  | write (data : List β)
  | close
  | log (fnm : String) (is_open chmod : Bool) (line : List β)

def fileWriter.step (w : fileWriter β) : fileWriter.action β → Option (fileWriter β)
  | .open_ fnm is_open chmod => some (w.open_ fnm is_open chmod).2
  | .write data => some (w.write data).2
  | .close => some w.close
  | .log fnm is_open chmod line => some (SmcapLog.write fnm is_open chmod line w)

theorem exec_some (w : fileWriter β) (as : List (fileWriter.action β)) :
    ∃ w', exec fileWriter.step w as = some w' := by
  induction as generalizing w with
  | nil => exact ⟨w, rfl⟩
  | cons a as ih => cases a <;> exact ih _

/-! ## What is written -/

/-- What `chmod` does when the call opens a file. -/
def fileWriter.action.chmod_fails : fileWriter.action β → Bool
  | .open_ _ _ chmod => !chmod
  | .log _ _ chmod _ => !chmod
  | _ => false

/-- The call opens a file and leaves it open. -/
def fileWriter.action.opens : fileWriter.action β → Bool
  | .open_ _ is_open chmod => is_open && !chmod
  | .log _ is_open chmod _ => is_open && !chmod
  | _ => false

/-- No file is open, and the contents are what they were. -/
structure Unwritten (contents : Nat → List β) (w : fileWriter β) : Prop where
  stream : ∀ i, w.writer ≠ some (some i)
  opened : w.opened = false
  same : w.disk.contents = contents

section
variable {contents : Nat → List β} {w w' : fileWriter β}

theorem unwritten_close (h : Unwritten contents w) : Unwritten contents w.close := by
  unfold fileWriter.close
  split
  · exact ⟨h.stream, rfl, h.same⟩
  · exact ⟨nofun, rfl, h.same⟩

theorem open_file_contents (disk : file_system String β) (fnm : String) :
    (disk.open_file fnm).2.contents = disk.contents := by
  unfold file_system.open_file
  split <;> rfl

/-- A `chmod` that succeeds closes the file that was opened. -/
theorem unwritten_open (h : Unwritten contents w) (fnm : String) {is_open chmod : Bool}
    (ho : (is_open && !chmod) = false) : Unwritten contents (w.open_ fnm is_open chmod).2 := by
  have hcontents := open_file_contents w.disk fnm
  unfold fileWriter.open_
  split
  · exact h
  · split
    · exact h
    · cases is_open with
      | true =>
        obtain rfl : chmod = true := by simpa using ho
        exact ⟨nofun, rfl, hcontents.trans h.same⟩
      | false =>
        cases chmod with
        | true => exact ⟨nofun, rfl, h.same⟩
        | false => exact ⟨nofun, rfl, h.same⟩

theorem unwritten_write (h : Unwritten contents w) (data : List β) :
    Unwritten contents (w.write data).2 := by
  unfold fileWriter.write
  split
  · exact h
  · exact h
  · next i hi => exact absurd hi (h.stream i)

theorem unwritten_step {a : fileWriter.action β} (h : Unwritten contents w)
    (ha : a.opens = false) (hstep : w.step a = some w') : Unwritten contents w' := by
  cases a with
  | open_ fnm is_open chmod =>
    obtain rfl := Option.some.inj hstep
    exact unwritten_open h fnm ha
  | write data =>
    obtain rfl := Option.some.inj hstep
    exact unwritten_write h data
  | close =>
    obtain rfl := Option.some.inj hstep
    exact unwritten_close h
  | log fnm is_open chmod line =>
    obtain rfl := Option.some.inj hstep
    have hopen := unwritten_open h fnm ha
    unfold SmcapLog.write
    simp only [h.opened, Bool.false_eq_true, if_false, hopen.opened]
    exact hopen

theorem unwritten_run (disk : file_system String β) {as : List (fileWriter.action β)}
    (has : ∀ a ∈ as, a.opens = false) :
    Always fileWriter.step (Unwritten disk.contents) { disk := disk } as := by
  have hnew : Unwritten disk.contents { disk := disk } := ⟨nofun, rfl, rfl⟩
  have hmeets : Meets fileWriter.step (fun _ a => a.opens = false) { disk := disk } as :=
    meets_of_forall fun a ha _ => has a ha
  exact always_of_meets (fun _ _ _ h ha hstep => unwritten_step h ha hstep) hnew hmeets

/-- As long as `chmod` succeeds, a writer never has an open file, and nothing that is written or
logged reaches any file. -/
theorem nothing_is_written (disk : file_system String β) (as : List (fileWriter.action β))
    (hchmod : ∀ a ∈ as, a.chmod_fails = false) :
    Always fileWriter.step (Unwritten disk.contents) { disk := disk } as := by
  refine unwritten_run disk fun a ha => ?_
  have hfails := hchmod a ha
  cases a with
  | open_ fnm is_open chmod => exact Bool.and_eq_false_iff.mpr (Or.inr hfails)
  | log fnm is_open chmod line => exact Bool.and_eq_false_iff.mpr (Or.inr hfails)
  | write data => rfl
  | close => rfl

end

theorem nothing_is_written_witness :
    Always fileWriter.step (Unwritten fun _ => []) ({} : fileWriter Nat)
      [.log "a.smcap" true true [1, 2], .open_ "a.smcap" true true, .write [3], .close] :=
  nothing_is_written {} _ (by decide)

/-! ## What a log keeps -/

/-- A file is open for the log, and these are the contents of the file. -/
structure LogOpen (i : Nat) (data : List β) (w : fileWriter β) : Prop where
  opened : w.opened = true
  stream : w.writer = some (some i)
  data : w.disk.contents i = data

section
variable {w : fileWriter β} {i : Nat} {data : List β}

theorem logOpen_write (h : LogOpen i data w) (line : List β) :
    LogOpen i (data ++ line) (w.write line).2 := by
  have hwrite : (w.write line).2 = { w with disk := w.disk.append i line } := by
    simp [fileWriter.write, h.stream]
  rw [hwrite]
  exact ⟨h.opened, h.stream, by simp [file_system.append, h.data]⟩

theorem logOpen_log (h : LogOpen i data w) (fnm : String) (is_open chmod : Bool)
    (line : List β) : LogOpen i (data ++ line) (SmcapLog.write fnm is_open chmod line w) := by
  unfold SmcapLog.write
  simp only [h.opened, if_true]
  exact logOpen_write h line

/-- The first line opens the file, when `chmod` fails. -/
theorem logOpen_first (disk : file_system String β) {fnm : String} (hfnm : fnm ≠ "")
    (line : List β) :
    LogOpen (disk.open_file fnm).1 (disk.contents (disk.open_file fnm).1 ++ line)
      (SmcapLog.write fnm true false line { disk := disk }) := by
  have hopen : LogOpen (disk.open_file fnm).1 (disk.contents (disk.open_file fnm).1)
      (({ disk := disk } : fileWriter β).open_ fnm true false).2 := by
    have hdata := congrFun (open_file_contents disk fnm) (disk.open_file fnm).1
    simp only [fileWriter.open_, if_neg hfnm]
    exact ⟨rfl, rfl, hdata⟩
  have hwrite := logOpen_write hopen line
  unfold SmcapLog.write
  simp only [Bool.false_eq_true, if_false, hopen.opened, if_true]
  exact hwrite

theorem exec_log (h : LogOpen i data w) (fnm : String) (is_open chmod : Bool)
    (lines : List (List β)) :
    ∃ w', exec fileWriter.step w (lines.map (.log fnm is_open chmod)) = some w' ∧
      LogOpen i (data ++ lines.flatten) w' := by
  induction lines generalizing w data with
  | nil => exact ⟨w, rfl, by simpa using h⟩
  | cons line lines ih =>
    obtain ⟨w', hexec, hw'⟩ := ih (logOpen_log h fnm is_open chmod line)
    have hdata : data ++ (line :: lines).flatten = data ++ line ++ lines.flatten := by simp
    exact ⟨w', hexec, hdata ▸ hw'⟩

end

/-- What a log adds to the file of its name: each line when the file can be opened and `chmod`
fails, and none otherwise. -/
theorem log_adds (disk : file_system String β) (fnm : String) (is_open chmod : Bool)
    (hfnm : fnm ≠ "") (lines : List (List β)) :
    ∃ w, exec fileWriter.step { disk := disk } (lines.map (.log fnm is_open chmod)) = some w ∧
      w.disk.contents (disk.open_file fnm).1 =
        disk.contents (disk.open_file fnm).1 ++ if is_open && !chmod then lines.flatten else [] := by
  cases hopens : is_open && !chmod with
  | false =>
    have hlogs : ∀ a ∈ lines.map (fileWriter.action.log fnm is_open chmod), a.opens = false := by
      intro a ha
      obtain ⟨line, -, rfl⟩ := List.mem_map.mp ha
      exact hopens
    have halways := unwritten_run disk hlogs
    obtain ⟨w, hexec⟩ := exec_some { disk := disk } (lines.map (.log fnm is_open chmod))
    have hw := (always_exec halways hexec).same
    exact ⟨w, hexec, by simp [hw]⟩
  | true =>
    obtain ⟨rfl, hchmod⟩ := Bool.and_eq_true_iff.mp hopens
    obtain rfl : chmod = false := by simpa using hchmod
    cases lines with
    | nil => exact ⟨{ disk := disk }, rfl, by simp⟩
    | cons line lines =>
      have hfirst := logOpen_first disk hfnm line
      obtain ⟨w, hexec, hw⟩ := exec_log hfirst fnm true false lines
      exact ⟨w, hexec, by simp [hw.data]⟩

theorem log_adds_witness :
    ∃ w, exec fileWriter.step ({} : fileWriter Nat)
        ([[1, 2], [3]].map (.log "a.smcap" true false)) = some w ∧
      w.disk.contents 0 = [] ++ [1, 2, 3] :=
  log_adds {} "a.smcap" true false (by decide) [[1, 2], [3]]

end socle.traflog
