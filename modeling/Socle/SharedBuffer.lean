-- Shared memory with a semaphore (common/shmbuffer.hpp). Processes attach to both by
-- name, and the first one makes them. Between two system calls of one attach, all
-- other processes go on.
import Mathlib.Tactic
import Socle.Lib.Run

namespace socle.shmbuffer

open lib.run

/-! ## The kernel -/

/-- The semaphore and the memory of the two names, when they are there: its value, and its size. The
bytes behind the size are 0. -/
structure kernel where
  sem : Option Nat := none
  mem : Option Nat := none
  bytes : Nat → UInt8 := fun _ => 0

def kernel.ftruncate (k : kernel) (size : Nat) : kernel :=
  { k with mem := some size, bytes := fun p => if p < size then k.bytes p else 0 }

/-- `memset` with 0. -/
def kernel.memset (k : kernel) (size : Nat) : kernel :=
  { k with bytes := fun p => if p < size then 0 else k.bytes p }

/-- What the kernel answers: whether the call succeeds where it can, the value of a semaphore that
is made without one, and the size of the file that `stat` finds. -/
structure answer where
  ok : Bool := true
  value : Nat := 0
  st_size : Option Nat := none

/-! ## shared_buffer -/

/-- A pointer to a semaphore. -/
inductive handle
  | null | opened | closed
deriving DecidableEq, Repr

/-- The call that `attach` makes next. -/
inductive call
  | idle
  -- with O_CREAT
  | sem_open | sem_init | sem_getvalue
  | shm_open
  -- with O_CREAT
  | shm_create | ftruncate
  -- ftruncate of a file that was there
  | stat | resize
  | mmap ( will_initialize : Bool) | memset
deriving DecidableEq, Repr

structure shared_buffer where
  semaphore : handle := .null
  memory_size : Nat := 0
  memory_fd : Bool := false
  capacity_ : Nat := 0
  attached_ : Bool := false
  create_on_error : Bool := true
  next : call := .idle
deriving Repr

namespace shared_buffer

variable (k : kernel) (a : answer) (b : shared_buffer)

/-- `goto fail`. -/
def fail : shared_buffer :=
  { b with next := .idle }

/-- The end of `attach`. -/
def mapped : shared_buffer :=
  { b with capacity_ := b.memory_size, attached_ := true, next := .idle }

/-- `attach`, with the first `sem_open`. -/
def attach (mem_size : Nat) (create_on_error : Bool) : shared_buffer :=
  if b.attached_ then b
  else
    let b := { b with memory_size := mem_size, memory_fd := false, create_on_error }
    if k.sem.isSome && a.ok then { b with semaphore := .opened, next := .shm_open }
    else { b with semaphore := .null, next := if create_on_error then .sem_open else .idle }

/-- One call of `attach`. -/
def go_on : Option (kernel × shared_buffer) :=
  match b.next with
  | .idle => none
  | .sem_open =>
    if a.ok then
      -- no initial value is given
      some ({ k with sem := some (k.sem.getD a.value) },
        { b with semaphore := .opened, next := .sem_init })
    else some (k, { b with semaphore := .null }.fail)
  | .sem_init =>
    if a.ok then some ({ k with sem := some 1 }, { b with next := .sem_getvalue })
    else some (k, b.fail)
  | .sem_getvalue => some (k, if a.ok then { b with next := .shm_open } else b.fail)
  | .shm_open =>
    if k.mem.isSome && a.ok then some (k, { b with memory_fd := true, next := .stat })
    else some (k, if b.create_on_error then { b with next := .shm_create } else b.fail)
  | .shm_create =>
    if a.ok then
      some ({ k with mem := some (k.mem.getD 0) },
        { b with memory_fd := true, next := .ftruncate })
    else some (k, b.fail)
  | .ftruncate =>
    if a.ok then some (k.ftruncate b.memory_size, { b with next := .mmap true })
    else some (k, b.fail)
  -- the file of this name, which need not be the memory
  | .stat => some (k, { b with next := if a.st_size = some 0 then .resize else .mmap false })
  | .resize =>
    if a.ok then some (k.ftruncate b.memory_size, { b with next := .mmap false })
    else some (k, b.fail)
  | .mmap will_initialize =>
    if a.ok then some (k, if will_initialize then { b with next := .memset } else b.mapped)
    else some (k, b.fail)
  | .memset => some (k.memset b.memory_size, b.mapped)

def dettach : shared_buffer :=
  { b with semaphore := .closed, memory_fd := false, attached_ := false }

end shared_buffer

/-! ## Processes -/

/-- All processes, and those that are between `acquire` and `release`. No function of the code reads
`inside` and `stored`, the bytes that were put into the memory. -/
structure world (ι : Type) where
  kernel : kernel := {}
  bufs : ι → shared_buffer := fun _ => {}
  inside : List ι := []
  stored : Nat → UInt8 := fun _ => 0

inductive action (ι : Type)
  | attach (i : ι) (mem_size : Nat) (create_on_error : Bool) (a : answer)
  | go_on (i : ι) (a : answer)
  | dettach (i : ι)
  | acquire (i : ι) (ok : Bool)
  | release (i : ι) (ok : Bool)
  -- data()[pos] = byte
  | store (i : ι) (pos : Nat) (byte : UInt8)

variable {ι : Type} [DecidableEq ι]

/-- `acquire`. It waits as long as the value is 0. -/
def acquire (w : world ι) (i : ι) (ok : Bool) : Option (world ι) :=
  match (w.bufs i).semaphore with
  | .null => some w
  | .closed => none
  | .opened =>
    if !ok then some w
    else
      match w.kernel.sem with
      | some (v + 1) =>
        some { w with kernel := { w.kernel with sem := some v }, inside := i :: w.inside }
      | _ => none

def release (w : world ι) (i : ι) (ok : Bool) : Option (world ι) :=
  match (w.bufs i).semaphore with
  | .null | .closed => none
  | .opened =>
    if !ok then some w
    else
      some { w with
        kernel := { w.kernel with sem := w.kernel.sem.map (· + 1) }
        inside := w.inside.erase i }

/-- A process does one thing at a time, does not call the kernel with a closed pointer, and does not
live on when it stores behind the memory. -/
def step (w : world ι) : action ι → Option (world ι)
  | .attach i mem_size create_on_error a =>
    if (w.bufs i).next = .idle then
      some { w with
        bufs := Function.update w.bufs i
          ((w.bufs i).attach w.kernel a mem_size create_on_error) }
    else none
  | .go_on i a =>
    ((w.bufs i).go_on w.kernel a).map fun (kernel, b) =>
      { w with kernel, bufs := Function.update w.bufs i b }
  | .dettach i =>
    if (w.bufs i).next = .idle ∧ (w.bufs i).semaphore = .opened then
      some { w with bufs := Function.update w.bufs i (w.bufs i).dettach }
    else none
  | .acquire i ok => if (w.bufs i).next = .idle then acquire w i ok else none
  | .release i ok => if (w.bufs i).next = .idle then release w i ok else none
  | .store i pos byte =>
    if (w.bufs i).attached_ ∧ pos < (w.bufs i).capacity_ ∧ pos < w.kernel.mem.getD 0 then
      some { w with
        kernel := { w.kernel with bytes := Function.update w.kernel.bytes pos byte }
        stored := Function.update w.stored pos byte }
    else none

/-! ## The law -/

/-- At most one process is inside, and no other gets in before it is out. -/
structure Exclusive (w : world ι) : Prop where
  one : w.inside.length ≤ 1
  locked : w.inside ≠ [] → w.kernel.sem = some 0

/-- Who gets in takes a value of 1, a semaphore is only initialized when nobody is inside, and
nobody releases for another one. -/
def Guarded (w : world ι) : action ι → Prop
  | .acquire i ok => (w.bufs i).semaphore = .opened → ok = true → ∀ v, w.kernel.sem = some v → v ≤ 1
  | .go_on i a => (w.bufs i).next = .sem_init → a.ok = true → w.inside = []
  | .release i ok => ok = true → i ∈ w.inside ∨ w.inside = []
  | _ => True

/-- An attach begins when no other one is under way, all of them ask for the same size, and what is
there is opened. Who releases is inside. -/
def InTurn (size : Nat) (w : world ι) : action ι → Prop
  | .attach _ mem_size _ a => (∀ j, (w.bufs j).next = .idle) ∧ mem_size = size ∧ a.ok = true
  | .go_on i a => (w.bufs i).next = .sem_init ∨ (w.bufs i).next = .shm_open → a.ok = true
  | .release i _ => i ∈ w.inside
  | _ => True

/-! ## One call of the kernel -/

section
variable {k k' : kernel} {a : answer} {b b' : shared_buffer}

/-- Only `sem_open` and `sem_init` touch the semaphore. -/
theorem go_on_sem (h : b.go_on k a = some (k', b')) :
    (b.next = .sem_open ∧ a.ok = true ∧ k'.sem = some (k.sem.getD a.value) ∧
        b'.semaphore = .opened ∧ b'.next = .sem_init) ∨
      (b.next = .sem_init ∧ a.ok = true ∧ k'.sem = some 1 ∧ b'.semaphore = b.semaphore ∧
        b'.next = .sem_getvalue) ∨
      (k'.sem = k.sem ∧ (b'.semaphore = .opened → b.semaphore = .opened) ∧
        b'.next ≠ .sem_open ∧ b'.next ≠ .sem_init ∧ (b.next = .sem_init → a.ok = false)) := by
  cases hnext : b.next with
  | idle => simp [shared_buffer.go_on, hnext] at h
  | sem_open =>
    simp only [shared_buffer.go_on, hnext] at h
    split at h <;> obtain ⟨rfl, rfl⟩ := Prod.mk.inj (Option.some.inj h)
    next hok => exact Or.inl ⟨rfl, hok, rfl, rfl, rfl⟩
    next => exact Or.inr (Or.inr ⟨rfl, nofun, nofun, nofun, nofun⟩)
  | sem_init =>
    simp only [shared_buffer.go_on, hnext] at h
    split at h <;> obtain ⟨rfl, rfl⟩ := Prod.mk.inj (Option.some.inj h)
    next hok => exact Or.inr (Or.inl ⟨rfl, hok, rfl, rfl, rfl⟩)
    next hno => exact Or.inr (Or.inr ⟨rfl, fun ho => ho, nofun, nofun, fun _ => by simpa using hno⟩)
  | _ =>
    -- all others leave it alone
    right
    right
    simp only [shared_buffer.go_on, hnext] at h
    grind [shared_buffer.fail, shared_buffer.mapped, kernel.ftruncate, kernel.memset]

end

section
variable {w w' : world ι}

theorem step_go_on {i : ι} {a : answer} (h : step w (.go_on i a) = some w') :
    ∃ k b, (w.bufs i).go_on w.kernel a = some (k, b) ∧
      w' = { w with kernel := k, bufs := Function.update w.bufs i b } := by
  obtain ⟨⟨k, b⟩, hgo, rfl⟩ := Option.map_eq_some_iff.mp h
  exact ⟨k, b, hgo, rfl⟩

/-- What `acquire` does. -/
theorem step_acquire {i : ι} {ok : Bool} (h : step w (.acquire i ok) = some w') :
    (((w.bufs i).semaphore = .null ∨ ok = false) ∧ w' = w) ∨
      ∃ v, (w.bufs i).next = .idle ∧ (w.bufs i).semaphore = .opened ∧ ok = true ∧
        w.kernel.sem = some (v + 1) ∧
        w' = { w with kernel := { w.kernel with sem := some v }, inside := i :: w.inside } := by
  simp only [step] at h
  split at h
  next hidle =>
    unfold acquire at h
    split at h
    next hnull => exact Or.inl ⟨Or.inl hnull, (Option.some.inj h).symm⟩
    · cases h
    next hsem =>
      split at h
      next hno => exact Or.inl ⟨Or.inr (by simpa using hno), (Option.some.inj h).symm⟩
      next hok =>
        split at h
        next v hv => exact Or.inr ⟨v, hidle, hsem, by simpa using hok, hv, (Option.some.inj h).symm⟩
        next => cases h
  next => cases h

/-- What `release` does. -/
theorem step_release {i : ι} {ok : Bool} (h : step w (.release i ok) = some w') :
    (ok = false ∧ w' = w) ∨ (ok = true ∧ (w.bufs i).next = .idle ∧
      (w.bufs i).semaphore = .opened ∧
      w' = { w with
        kernel := { w.kernel with sem := w.kernel.sem.map (· + 1) }
        inside := w.inside.erase i }) := by
  simp only [step] at h
  split at h
  next hidle =>
    unfold release at h
    split at h
    · cases h
    · cases h
    next hsem =>
      cases ok with
      | false => exact Or.inl ⟨rfl, (Option.some.inj h).symm⟩
      | true => exact Or.inr ⟨rfl, hidle, hsem, (Option.some.inj h).symm⟩
  next => cases h

/-! ## One inside -/

omit [DecidableEq ι] in
theorem Exclusive.nobody (h : w.inside = []) : Exclusive w :=
  ⟨by simp [h], fun hne => absurd h hne⟩

omit [DecidableEq ι] in
theorem Exclusive.of_same (h : Exclusive w) (hinside : w'.inside = w.inside)
    (hsem : w'.kernel.sem = w.kernel.sem) : Exclusive w' := by
  obtain ⟨hone, hlocked⟩ := h
  exact ⟨by rw [hinside]; exact hone, by rw [hinside, hsem]; exact hlocked⟩

theorem exclusive_step {a : action ι} (h : Exclusive w) (ha : Guarded w a)
    (hs : step w a = some w') : Exclusive w' := by
  cases a with
  | attach i mem_size create_on_error a =>
    simp only [step] at hs
    split at hs
    · obtain rfl := Option.some.inj hs
      exact h.of_same rfl rfl
    · cases hs
  | go_on i a =>
    obtain ⟨k, b, hgo, rfl⟩ := step_go_on hs
    rcases go_on_sem hgo with ⟨-, -, hsem, -, -⟩ | ⟨hinit, hok, -, -, -⟩ | ⟨hsem, -, -, -, -⟩
    · -- a semaphore with somebody inside is there already
      refine ⟨h.one, fun hne => ?_⟩
      have hzero := h.locked hne
      rw [hzero] at hsem
      exact hsem
    · exact Exclusive.nobody (ha hinit hok)
    · exact h.of_same rfl hsem
  | dettach i =>
    simp only [step] at hs
    split at hs
    · obtain rfl := Option.some.inj hs
      exact h.of_same rfl rfl
    · cases hs
  | acquire i ok =>
    rcases step_acquire hs with ⟨-, rfl⟩ | ⟨v, -, hsem, hok, hv, rfl⟩
    · exact h
    · have hle := ha hsem hok (v + 1) hv
      have hzero : v = 0 := by omega
      -- the value was not 0, so nobody was inside
      have hnobody : w.inside = [] := by
        by_contra hne
        have hlocked := h.locked hne
        rw [hv] at hlocked
        cases hlocked
      subst hzero
      exact ⟨by simp [hnobody], fun _ => rfl⟩
  | release i ok =>
    rcases step_release hs with ⟨-, rfl⟩ | ⟨hok, -, -, rfl⟩
    · exact h
    · apply Exclusive.nobody
      rcases ha hok with hin | hnobody
      · obtain ⟨j, hj⟩ : ∃ j, w.inside = [j] := by
          have hone := h.one
          apply List.length_eq_one_iff.mp
          have hpos := List.length_pos_of_mem hin
          omega
        rw [hj] at hin ⊢
        obtain rfl := List.mem_singleton.mp hin
        simp
      · simp [hnobody]
  | store i pos byte =>
    simp only [step] at hs
    split at hs
    · obtain rfl := Option.some.inj hs
      exact h.of_same rfl rfl
    · cases hs

/-- A step that is not guarded lets somebody in, or leaves the semaphore open for others. -/
theorem open_step {a : action ι} (h : Exclusive w) (ha : ¬ Guarded w a)
    (hs : step w a = some w') : ¬ Exclusive w' := by
  intro h'
  cases a with
  | attach i mem_size create_on_error a => exact ha trivial
  | go_on i a =>
    simp only [Guarded, Classical.not_imp] at ha
    obtain ⟨hinit, hok, hne⟩ := ha
    obtain ⟨k, b, hgo, rfl⟩ := step_go_on hs
    have hlocked := h'.locked hne
    rcases go_on_sem hgo with ⟨hopen, -⟩ | ⟨-, -, hsem, -⟩ | ⟨-, -, -, -, hfail⟩
    · rw [hinit] at hopen
      cases hopen
    · rw [show k.sem = some 0 from hlocked] at hsem
      cases hsem
    · rw [hfail hinit] at hok
      cases hok
  | dettach i => exact ha trivial
  | acquire i ok =>
    simp only [Guarded, Classical.not_imp, not_forall] at ha
    obtain ⟨hsem, hok, v, hv, hgt⟩ := ha
    rcases step_acquire hs with ⟨hnot, -⟩ | ⟨v', -, -, -, hv', rfl⟩
    · simp [hsem, hok] at hnot
    · have hlocked : some v' = some 0 := h'.locked (List.cons_ne_nil _ _)
      rw [hv, Option.some.injEq] at hv'
      rw [Option.some.injEq] at hlocked
      omega
  | release i ok =>
    simp only [Guarded, Classical.not_imp, not_or] at ha
    obtain ⟨hok, hout, hne⟩ := ha
    rcases step_release hs with ⟨hno, -⟩ | ⟨-, -, -, rfl⟩
    · rw [hok] at hno
      cases hno
    · have herase : w.inside.erase i = w.inside := List.erase_of_not_mem hout
      have hlocked : w.kernel.sem.map (· + 1) = some 0 := h'.locked (by rw [herase]; exact hne)
      rw [h.locked hne] at hlocked
      cases hlocked
  | store i pos byte => exact ha trivial

end

/-! ## Attaches in turn -/

/-- One attach is under way. -/
def Alone (w : world ι) : Prop :=
  ∀ i j, (w.bufs i).next ≠ .idle → (w.bufs j).next ≠ .idle → i = j

/-- The value of the semaphore and the number of those inside are 1 together, but for a semaphore
that was made and is not initialized: only who made it can use that one. -/
structure SemOrder (w : world ι) : Prop where
  none_sem : w.kernel.sem = none → w.inside = [] ∧ ∀ j, (w.bufs j).semaphore ≠ .opened
  creating : ∀ i, (w.bufs i).next = .sem_open → w.kernel.sem = none
  fresh : ∀ i, (w.bufs i).next = .sem_init →
    w.inside = [] ∧ ∀ j, (w.bufs j).semaphore = .opened → j = i
  sum : (∀ i, (w.bufs i).next ≠ .sem_init) → ∀ v, w.kernel.sem = some v → w.inside.length + v = 1

/-- The attach made the memory, which is not initialized. -/
def call.making : call → Bool
  | .ftruncate | .mmap true | .memset => true
  | _ => false

/-- The attach has the memory opened. -/
def call.located : call → Bool
  | .ftruncate | .stat | .resize | .mmap _ | .memset => true
  | _ => false

/-- The memory is as it was stored, and nobody is attached to one that is not initialized. -/
structure MemOrder (size : Nat) (w : world ι) : Prop where
  sizes : ∀ i, (w.bufs i).next ≠ .idle → (w.bufs i).memory_size = size
  room : ∀ i, (w.bufs i).attached_ = true → (w.bufs i).capacity_ = size
  creating : ∀ i, (w.bufs i).next = .shm_create → w.kernel.mem = none
  located : ∀ i, (w.bufs i).next.located = true → w.kernel.mem ≠ none
  untouched : (w.kernel.mem = none ∨ ∃ i, (w.bufs i).next.making = true) →
    (∀ p, w.kernel.bytes p = 0) ∧ ∀ j, (w.bufs j).attached_ = false
  behind : ∀ p, size ≤ p → w.kernel.bytes p = 0
  kept : w.kernel.bytes = w.stored

/-- A turn of the attach of `i`, when it is the only one that is under way or begins. -/
structure Turned (w w' : world ι) (i : ι) : Prop where
  others : ∀ j, j ≠ i → w'.bufs j = w.bufs j
  idle : ∀ j, j ≠ i → (w.bufs j).next = .idle
  inside : w'.inside = w.inside
  stored : w'.stored = w.stored

section
variable {w w' : world ι} {i : ι} {k : kernel} {a : answer} {b : shared_buffer} {size : Nat}

omit [DecidableEq ι] in
theorem Alone.idle (h : Alone w) (hi : (w.bufs i).next ≠ .idle) :
    ∀ j, j ≠ i → (w.bufs j).next = .idle := by
  intro j hj
  by_contra hne
  exact hj (h j i hne hi)

theorem turned_update (h : ∀ j, j ≠ i → (w.bufs j).next = .idle) :
    Turned w { w with kernel := k, bufs := Function.update w.bufs i b } i :=
  ⟨fun _ hj => Function.update_of_ne hj _ _, h, rfl, rfl⟩

omit [DecidableEq ι] in
theorem Turned.only (h : Turned w w' i) {j : ι} (hj : (w'.bufs j).next ≠ .idle) : j = i := by
  by_contra hne
  rw [h.others j hne] at hj
  exact hj (h.idle j hne)

omit [DecidableEq ι] in
theorem Turned.alone (h : Turned w w' i) : Alone w' := by
  intro j l hj hl
  rw [h.only hj, h.only hl]

/-- What is under way is not idle. -/
theorem go_on_busy {k' : kernel} {b' : shared_buffer} (h : b.go_on k a = some (k', b')) :
    b.next ≠ .idle := by
  intro hidle
  simp [shared_buffer.go_on, hidle] at h

/-! ## The semaphore -/

omit [DecidableEq ι] in
theorem SemOrder.exclusive (h : SemOrder w) : Exclusive w := by
  cases hsem : w.kernel.sem with
  | none => exact Exclusive.nobody (h.none_sem hsem).1
  | some v =>
    by_cases hinit : ∃ i, (w.bufs i).next = .sem_init
    · obtain ⟨i, hi⟩ := hinit
      exact Exclusive.nobody (h.fresh i hi).1
    · have hsum := h.sum (not_exists.mp hinit) v hsem
      refine ⟨by omega, fun hne => ?_⟩
      have hpos := List.length_pos_of_ne_nil hne
      rw [hsem, show v = 0 by omega]

omit [DecidableEq ι] in
/-- A process with an opened semaphore that makes no call of an attach sees an initialized one. -/
theorem SemOrder.ready (h : SemOrder w) (hidle : (w.bufs i).next = .idle)
    (hopened : (w.bufs i).semaphore = .opened) : ∀ j, (w.bufs j).next ≠ .sem_init := by
  intro j hj
  obtain rfl := (h.fresh j hj).2 i hopened
  rw [hidle] at hj
  cases hj

omit [DecidableEq ι] in
/-- A turn that neither makes nor initializes the semaphore. -/
theorem SemOrder.keep (h : SemOrder w) (ht : Turned w w' i) (hsem : w'.kernel.sem = w.kernel.sem)
    (hopened : (w'.bufs i).semaphore = .opened →
      (w.bufs i).semaphore = .opened ∨ w.kernel.sem ≠ none)
    (hopen : (w'.bufs i).next = .sem_open → w.kernel.sem = none)
    (hinit : (w'.bufs i).next ≠ .sem_init) (hbefore : (w.bufs i).next ≠ .sem_init) :
    SemOrder w' where
  none_sem := by
    intro hnone
    rw [hsem] at hnone
    obtain ⟨hnobody, hno⟩ := h.none_sem hnone
    refine ⟨ht.inside.trans hnobody, fun j hj => ?_⟩
    by_cases hji : j = i
    · subst hji
      rcases hopened hj with hold | hthere
      · exact hno j hold
      · exact hthere hnone
    · rw [ht.others j hji] at hj
      exact hno j hj
  creating := by
    intro j hj
    obtain rfl := ht.only (j := j) (by simp [hj])
    exact hsem.trans (hopen hj)
  fresh := by
    intro j hj
    obtain rfl := ht.only (j := j) (by simp [hj])
    exact absurd hj hinit
  sum := by
    intro _ v hv
    rw [ht.inside]
    rw [hsem] at hv
    apply h.sum _ v hv
    intro j hj
    by_cases hji : j = i
    · rw [hji] at hj
      exact hbefore hj
    · rw [ht.idle j hji] at hj
      cases hj

theorem SemOrder.go_on (h : SemOrder w) (ht : Turned w w' i)
    (hgo : (w.bufs i).go_on w.kernel a = some (w'.kernel, w'.bufs i))
    (hok : (w.bufs i).next = .sem_init → a.ok = true) : SemOrder w' := by
  rcases go_on_sem hgo with ⟨hopen, -, hsem, hb, hnext⟩ | ⟨hinit, -, hsem, hb, hnext⟩ |
    ⟨hsem, hb, hnext, hnext', hfail⟩
  · -- a semaphore that was not there
    obtain ⟨hnobody, hnone⟩ := h.none_sem (h.creating i hopen)
    constructor
    · intro hno
      rw [hsem] at hno
      cases hno
    · intro j hj
      obtain rfl := ht.only (j := j) (by simp [hj])
      rw [hnext] at hj
      cases hj
    · intro j hj
      obtain rfl := ht.only (j := j) (by simp [hj])
      refine ⟨ht.inside.trans hnobody, fun l hl => ?_⟩
      by_contra hne
      rw [ht.others l hne] at hl
      exact hnone l hl
    · intro hall
      exact absurd hnext (hall i)
  · -- nobody else can use it, and now its value is 1
    obtain ⟨hnobody, -⟩ := h.fresh i hinit
    constructor
    · intro hno
      rw [hsem] at hno
      cases hno
    · intro j hj
      obtain rfl := ht.only (j := j) (by simp [hj])
      rw [hnext] at hj
      cases hj
    · intro j hj
      obtain rfl := ht.only (j := j) (by simp [hj])
      rw [hnext] at hj
      cases hj
    · intro _ v hv
      rw [hsem, Option.some.injEq] at hv
      rw [ht.inside, hnobody, ← hv]
      rfl
  · apply h.keep ht hsem (fun hj => Or.inl (hb hj)) (fun hj => absurd hj hnext) hnext'
    intro hinit
    have hfails := hfail hinit
    rw [hok hinit] at hfails
    cases hfails

omit [DecidableEq ι] in
theorem SemOrder.attach (h : SemOrder w) (ht : Turned w w' i) (hidle : (w.bufs i).next = .idle)
    (hk : w'.kernel = w.kernel) {mem_size : Nat} {create_on_error : Bool}
    (hb : w'.bufs i = (w.bufs i).attach w.kernel a mem_size create_on_error)
    (hok : a.ok = true) : SemOrder w' := by
  have hbefore : (w.bufs i).next ≠ .sem_init := by simp [hidle]
  unfold shared_buffer.attach at hb
  split at hb
  · exact h.keep ht (by rw [hk]) (fun hj => Or.inl (by rwa [hb] at hj)) (by simp [hb, hidle])
      (by rwa [hb]) hbefore
  · simp only [hok, Bool.and_true] at hb
    split at hb
    next hthere =>
      have hne : w.kernel.sem ≠ none := Option.isSome_iff_ne_none.mp hthere
      exact h.keep ht (by rw [hk]) (fun _ => Or.inr hne) (by simp [hb]) (by simp [hb]) hbefore
    next hnot =>
      have hnone : w.kernel.sem = none := by simpa using hnot
      refine h.keep ht (by rw [hk]) (by simp [hb]) (fun _ => hnone) ?_ hbefore
      rw [hb]
      cases create_on_error <;> simp

omit [DecidableEq ι] in
/-- Who gets in found a value of 1. -/
theorem SemOrder.acquire (h : SemOrder w) (hidle : (w.bufs i).next = .idle)
    (hopened : (w.bufs i).semaphore = .opened) {v : Nat} (hv : w.kernel.sem = some (v + 1)) :
    SemOrder { w with kernel := { w.kernel with sem := some v }, inside := i :: w.inside } := by
  have hready := h.ready hidle hopened
  have hsum := h.sum hready (v + 1) hv
  constructor
  · intro hnone
    cases hnone
  · intro j hj
    have hnone := h.creating j hj
    rw [hv] at hnone
    cases hnone
  · exact fun j hj => absurd hj (hready j)
  · intro _ v' hv'
    obtain rfl := Option.some.inj hv'
    simp only [List.length_cons]
    omega

theorem SemOrder.release (h : SemOrder w) (hin : i ∈ w.inside) :
    SemOrder { w with
      kernel := { w.kernel with sem := w.kernel.sem.map (· + 1) }
      inside := w.inside.erase i } := by
  have hne : w.inside ≠ [] := List.ne_nil_of_mem hin
  have hready : ∀ j, (w.bufs j).next ≠ .sem_init := fun j hj => hne (h.fresh j hj).1
  have hlen := List.length_erase_of_mem hin
  have hpos := List.length_pos_of_mem hin
  constructor
  · intro hnone
    exact absurd (h.none_sem (by simpa using hnone)).1 hne
  · intro j hj
    exact absurd (h.none_sem (h.creating j hj)).1 hne
  · exact fun j hj => absurd hj (hready j)
  · intro _ v hv
    obtain ⟨v', hv', rfl⟩ := Option.map_eq_some_iff.mp hv
    have hsum := h.sum hready v' hv'
    simp only
    omega

/-- What a dettach leaves of each process. -/
structure Dettached (b b' : shared_buffer) : Prop where
  next : b'.next = b.next
  memory_size : b'.memory_size = b.memory_size
  capacity : b'.capacity_ = b.capacity_
  attached : b'.attached_ = true → b.attached_ = true
  opened : b'.semaphore = .opened → b.semaphore = .opened

theorem dettached (bufs : ι → shared_buffer) (j : ι) :
    Dettached (bufs j) (Function.update bufs i (bufs i).dettach j) := by
  by_cases hj : j = i
  · subst hj
    rw [Function.update_self]
    exact ⟨rfl, rfl, rfl, nofun, nofun⟩
  · rw [Function.update_of_ne hj]
    exact ⟨rfl, rfl, rfl, fun hin => hin, fun hopened => hopened⟩

theorem SemOrder.dettach (h : SemOrder w) :
    SemOrder { w with bufs := Function.update w.bufs i (w.bufs i).dettach } := by
  have hleft := dettached (i := i) w.bufs
  constructor
  · intro hnone
    exact ⟨(h.none_sem hnone).1, fun j hj => (h.none_sem hnone).2 j ((hleft j).opened hj)⟩
  · exact fun j hj => h.creating j (by rwa [(hleft j).next] at hj)
  · intro j hj
    obtain ⟨hnobody, hone⟩ := h.fresh j (by rwa [(hleft j).next] at hj)
    exact ⟨hnobody, fun l hl => hone l ((hleft l).opened hl)⟩
  · intro hall v hv
    exact h.sum (fun j => by rw [← (hleft j).next]; exact hall j) v hv

/-! ## The memory -/

/-- A call that touches neither the memory nor what is mapped. -/
structure Untouched (k k' : kernel) (a : answer) (b b' : shared_buffer) : Prop where
  mem : k'.mem = k.mem
  bytes : k'.bytes = k.bytes
  attached : b'.attached_ = b.attached_
  memory_size : b'.memory_size = b.memory_size
  capacity : b'.capacity_ = b.capacity_
  making : b'.next.making = false
  creating : b'.next = .shm_create → b.next = .shm_open ∧ (k.mem = none ∨ a.ok = false)
  located : b'.next.located = true → b.next.located = true ∨ k.mem ≠ none

/-- The next call is another one. -/
theorem Untouched.turn {k' : kernel} {semaphore : handle} {memory_fd : Bool} {next : call}
    (hmem : k'.mem = k.mem) (hbytes : k'.bytes = k.bytes) (hmaking : next.making = false)
    (hcreating : next = .shm_create → b.next = .shm_open ∧ (k.mem = none ∨ a.ok = false))
    (hlocated : next.located = true → b.next.located = true ∨ k.mem ≠ none) :
    Untouched k k' a b { b with semaphore, memory_fd, next } :=
  ⟨hmem, hbytes, rfl, rfl, rfl, hmaking, hcreating, hlocated⟩

theorem Untouched.fail : Untouched k k a b b.fail :=
  Untouched.turn rfl rfl rfl nofun nofun

/-- The calls that touch the memory, those that end an attach, and the others. -/
theorem go_on_mem {k' : kernel} {b' : shared_buffer} (h : b.go_on k a = some (k', b')) :
    (b.next = .shm_create ∧ k'.mem = some (k.mem.getD 0) ∧ k'.bytes = k.bytes ∧
        b' = { b with memory_fd := true, next := .ftruncate }) ∨
      ((b.next = .ftruncate ∨ b.next = .resize) ∧ k' = k.ftruncate b.memory_size ∧
        b' = { b with next := .mmap (b.next = .ftruncate) }) ∨
      (b.next = .memset ∧ k' = k.memset b.memory_size ∧ b' = b.mapped) ∨
      (b.next = .mmap false ∧ k' = k ∧ b' = b.mapped) ∨
      (b.next = .mmap true ∧ k' = k ∧ b' = { b with next := .memset }) ∨
      Untouched k k' a b b' := by
  cases hnext : b.next with
  | idle => simp [shared_buffer.go_on, hnext] at h
  | sem_open =>
    simp only [shared_buffer.go_on, hnext] at h
    iterate 5 right
    split at h <;> obtain ⟨rfl, rfl⟩ := Prod.mk.inj (Option.some.inj h)
    · exact Untouched.turn rfl rfl rfl nofun nofun
    · exact Untouched.turn rfl rfl rfl nofun nofun
  | sem_init =>
    simp only [shared_buffer.go_on, hnext] at h
    iterate 5 right
    split at h <;> obtain ⟨rfl, rfl⟩ := Prod.mk.inj (Option.some.inj h)
    · exact Untouched.turn rfl rfl rfl nofun nofun
    · exact Untouched.fail
  | sem_getvalue =>
    simp only [shared_buffer.go_on, hnext] at h
    iterate 5 right
    obtain ⟨rfl, rfl⟩ := Prod.mk.inj (Option.some.inj h)
    split
    · exact Untouched.turn rfl rfl rfl nofun nofun
    · exact Untouched.fail
  | shm_open =>
    simp only [shared_buffer.go_on, hnext] at h
    iterate 5 right
    split at h <;> obtain ⟨rfl, rfl⟩ := Prod.mk.inj (Option.some.inj h)
    next hthere =>
      simp only [Bool.and_eq_true, Option.isSome_iff_ne_none] at hthere
      exact Untouched.turn rfl rfl rfl nofun fun _ => Or.inr hthere.1
    next hnot =>
      split
      · apply Untouched.turn rfl rfl rfl _ (by simp [call.located])
        intro _
        refine ⟨hnext, ?_⟩
        simp only [Bool.and_eq_true, not_and, Bool.not_eq_true] at hnot
        cases hmem : k.mem with
        | none => exact Or.inl rfl
        | some n => exact Or.inr (hnot (by simp [hmem]))
      · exact Untouched.fail
  | shm_create =>
    simp only [shared_buffer.go_on, hnext] at h
    split at h <;> obtain ⟨rfl, rfl⟩ := Prod.mk.inj (Option.some.inj h)
    · exact Or.inl ⟨rfl, rfl, rfl, rfl⟩
    · iterate 5 right
      exact Untouched.fail
  | ftruncate =>
    simp only [shared_buffer.go_on, hnext] at h
    split at h <;> obtain ⟨rfl, rfl⟩ := Prod.mk.inj (Option.some.inj h)
    · exact Or.inr (Or.inl ⟨Or.inl rfl, rfl, by simp⟩)
    · iterate 5 right
      exact Untouched.fail
  | stat =>
    simp only [shared_buffer.go_on, hnext] at h
    iterate 5 right
    obtain ⟨rfl, rfl⟩ := Prod.mk.inj (Option.some.inj h)
    have hlocated : b.next.located = true := by simp [hnext, call.located]
    split
    · exact Untouched.turn rfl rfl rfl nofun fun _ => Or.inl hlocated
    · exact Untouched.turn rfl rfl rfl nofun fun _ => Or.inl hlocated
  | resize =>
    simp only [shared_buffer.go_on, hnext] at h
    split at h <;> obtain ⟨rfl, rfl⟩ := Prod.mk.inj (Option.some.inj h)
    · exact Or.inr (Or.inl ⟨Or.inr rfl, rfl, by simp⟩)
    · iterate 5 right
      exact Untouched.fail
  | mmap will_initialize =>
    simp only [shared_buffer.go_on, hnext] at h
    split at h <;> obtain ⟨rfl, rfl⟩ := Prod.mk.inj (Option.some.inj h)
    · cases will_initialize
      · exact Or.inr (Or.inr (Or.inr (Or.inl ⟨rfl, rfl, rfl⟩)))
      · exact Or.inr (Or.inr (Or.inr (Or.inr (Or.inl ⟨rfl, rfl, rfl⟩))))
    · iterate 5 right
      exact Untouched.fail
  | memset =>
    simp only [shared_buffer.go_on, hnext] at h
    obtain ⟨rfl, rfl⟩ := Prod.mk.inj (Option.some.inj h)
    exact Or.inr (Or.inr (Or.inl ⟨rfl, rfl, rfl⟩))

omit [DecidableEq ι] in
/-- Behind the size there is nothing to cut. -/
theorem MemOrder.ftruncate (h : MemOrder size w) :
    (w.kernel.ftruncate size).bytes = w.kernel.bytes := by
  funext p
  simp only [kernel.ftruncate]
  split
  · rfl
  next hp => exact (h.behind p (not_lt.mp hp)).symm

omit [DecidableEq ι] in
/-- A turn after which the memory is there, or nobody made it, and that stores nothing. -/
theorem MemOrder.keep (h : MemOrder size w) (ht : Turned w w' i)
    (hbytes : w'.kernel.bytes = w.kernel.bytes)
    (hsize : (w'.bufs i).next ≠ .idle → (w'.bufs i).memory_size = size)
    (hroom : (w'.bufs i).attached_ = true → (w'.bufs i).capacity_ = size)
    (hcreating : (w'.bufs i).next = .shm_create → w'.kernel.mem = none)
    (hlocated : (w'.bufs i).next.located = true → w'.kernel.mem ≠ none)
    (huntouched : w'.kernel.mem = none ∨ (w'.bufs i).next.making = true →
      (∀ p, w.kernel.bytes p = 0) ∧ (∀ j, (w.bufs j).attached_ = false) ∧
        (w'.bufs i).attached_ = false) :
    MemOrder size w' where
  sizes := by
    intro j hj
    obtain rfl := ht.only hj
    exact hsize hj
  room := by
    intro j hj
    by_cases hji : j = i
    · subst hji
      exact hroom hj
    · rw [ht.others j hji] at hj ⊢
      exact h.room j hj
  creating := by
    intro j hj
    obtain rfl := ht.only (j := j) (by simp [hj])
    exact hcreating hj
  located := by
    intro j hj
    obtain rfl := ht.only (j := j) (by
      intro hidle
      simp [hidle, call.located] at hj)
    exact hlocated hj
  untouched := by
    intro hpremise
    have hmade : w'.kernel.mem = none ∨ (w'.bufs i).next.making = true := by
      rcases hpremise with hnone | ⟨j, hj⟩
      · exact Or.inl hnone
      · obtain rfl := ht.only (j := j) (by
          intro hidle
          simp [hidle, call.making] at hj)
        exact Or.inr hj
    obtain ⟨hzero, hnobody, hown⟩ := huntouched hmade
    refine ⟨fun p => by rw [hbytes]; exact hzero p, fun j => ?_⟩
    by_cases hji : j = i
    · rw [hji]
      exact hown
    · rw [ht.others j hji]
      exact hnobody j
  behind := by
    intro p hp
    rw [hbytes]
    exact h.behind p hp
  kept := by
    rw [hbytes, h.kept, ht.stored]

section
variable (h : MemOrder size w) (ht : Turned w w' i) (hbusy : (w.bufs i).next ≠ .idle)
  (hbytes : w'.kernel.bytes = w.kernel.bytes) (hmem : w'.kernel.mem ≠ none)
include h ht hbusy hbytes hmem

omit [DecidableEq ι] in
/-- A call that goes on to another one with the memory there, and maps nothing. -/
theorem MemOrder.called {memory_fd : Bool} {next : call}
    (hb : w'.bufs i = { w.bufs i with memory_fd, next }) (hnext : next ≠ .shm_create)
    (hmaking : next.making = true → w.kernel.mem = none ∨ (w.bufs i).next.making = true) :
    MemOrder size w' := by
  apply h.keep ht hbytes
  · intro _
    rw [hb]
    exact h.sizes i hbusy
  · intro hattached
    rw [hb] at hattached ⊢
    exact h.room i hattached
  · intro hcreating
    rw [hb] at hcreating
    exact absurd hcreating hnext
  · exact fun _ => hmem
  · rintro (hnone | hmade)
    · exact absurd hnone hmem
    · rw [hb] at hmade
      obtain ⟨hzero, hnobody⟩ := h.untouched ((hmaking hmade).imp_right fun hi => ⟨i, hi⟩)
      exact ⟨hzero, hnobody, by rw [hb]; exact hnobody i⟩

omit [DecidableEq ι] in
/-- The last call of an attach. -/
theorem MemOrder.mapped (hb : w'.bufs i = (w.bufs i).mapped) : MemOrder size w' := by
  apply h.keep ht hbytes
  · simp [hb, shared_buffer.mapped]
  · intro _
    rw [hb]
    exact h.sizes i hbusy
  · simp [hb, shared_buffer.mapped]
  · exact fun _ => hmem
  · rintro (hnone | hmade)
    · exact absurd hnone hmem
    · simp [hb, shared_buffer.mapped, call.making] at hmade

end

omit [DecidableEq ι] in
/-- A call that touches neither the memory nor what is mapped. What is there is opened, so that the
memory is not made a second time. -/
theorem MemOrder.untouched_call (h : MemOrder size w) (ht : Turned w w' i)
    (hbusy : (w.bufs i).next ≠ .idle)
    (hcall : Untouched w.kernel w'.kernel a (w.bufs i) (w'.bufs i))
    (hok : (w.bufs i).next = .shm_open → a.ok = true) : MemOrder size w' := by
  apply h.keep ht hcall.bytes
  · exact fun _ => hcall.memory_size.trans (h.sizes i hbusy)
  · intro hattached
    rw [hcall.attached] at hattached
    exact hcall.capacity.trans (h.room i hattached)
  · intro hcreating
    obtain ⟨hopen, hnone⟩ := hcall.creating hcreating
    rw [hcall.mem]
    exact hnone.resolve_right (by simp [hok hopen])
  · intro hlocated
    rw [hcall.mem]
    rcases hcall.located hlocated with hbefore | hthere
    · exact h.located i hbefore
    · exact hthere
  · rintro (hnone | hmaking)
    · rw [hcall.mem] at hnone
      obtain ⟨hzero, hnobody⟩ := h.untouched (Or.inl hnone)
      exact ⟨hzero, hnobody, hcall.attached.trans (hnobody i)⟩
    · rw [hcall.making] at hmaking
      cases hmaking

omit [DecidableEq ι] in
theorem MemOrder.go_on (h : MemOrder size w) (ht : Turned w w' i)
    (hgo : (w.bufs i).go_on w.kernel a = some (w'.kernel, w'.bufs i))
    (hok : (w.bufs i).next = .shm_open → a.ok = true) : MemOrder size w' := by
  have hbusy := go_on_busy hgo
  have hsize := h.sizes i hbusy
  rcases go_on_mem hgo with ⟨hnext, hmem, hbytes, hb⟩ | ⟨hnext, hk, hb⟩ | ⟨hnext, hk, hb⟩ |
    ⟨hnext, hk, hb⟩ | ⟨hnext, hk, hb⟩ | hother
  · -- the memory was not there
    exact h.called ht hbusy hbytes (by simp [hmem]) hb nofun fun _ => Or.inl (h.creating i hnext)
  · -- who makes it has nothing to cut, and neither has another one
    have hbytes : w'.kernel.bytes = w.kernel.bytes := by
      rw [hk, hsize]
      exact h.ftruncate
    apply h.called ht hbusy hbytes (by simp [hk, kernel.ftruncate]) hb nofun
    intro hmaking
    right
    rcases hnext with hnext | hnext
    · simp [hnext, call.making]
    · simp [hnext, call.making] at hmaking
  · -- nobody stored anything so far
    have hmade : (w.bufs i).next.making = true := by simp [hnext, call.making]
    obtain ⟨hzero, -⟩ := h.untouched (Or.inr ⟨i, hmade⟩)
    have hmem : w'.kernel.mem ≠ none := by
      rw [hk]
      exact h.located i (by simp [hnext, call.located])
    have hbytes : w'.kernel.bytes = w.kernel.bytes := by
      funext p
      simp [hk, kernel.memset, hzero p]
    exact h.mapped ht hbusy hbytes hmem hb
  · have hmem : w'.kernel.mem ≠ none := by
      rw [hk]
      exact h.located i (by simp [hnext, call.located])
    exact h.mapped ht hbusy (by rw [hk]) hmem hb
  · have hmem : w'.kernel.mem ≠ none := by
      rw [hk]
      exact h.located i (by simp [hnext, call.located])
    apply h.called ht hbusy (by rw [hk]) hmem hb nofun
    intro _
    right
    simp [hnext, call.making]
  · exact h.untouched_call ht hbusy hother hok

omit [DecidableEq ι] in
theorem MemOrder.attach (h : MemOrder size w) (ht : Turned w w' i)
    (hidle : (w.bufs i).next = .idle) (hk : w'.kernel = w.kernel) {create_on_error : Bool}
    (hb : w'.bufs i = (w.bufs i).attach w.kernel a size create_on_error) : MemOrder size w' := by
  have hattached : (w'.bufs i).attached_ = (w.bufs i).attached_ := by
    rw [hb, shared_buffer.attach]
    repeat' split
    all_goals rfl
  have hcapacity : (w'.bufs i).capacity_ = (w.bufs i).capacity_ := by
    rw [hb, shared_buffer.attach]
    repeat' split
    all_goals rfl
  have hnext : (w'.bufs i).next = .idle ∨ ((w'.bufs i).memory_size = size ∧
      ((w'.bufs i).next = .shm_open ∨ (w'.bufs i).next = .sem_open)) := by
    rw [hb, shared_buffer.attach]
    split
    · exact Or.inl hidle
    · simp only
      split
      · exact Or.inr ⟨rfl, Or.inl rfl⟩
      · cases create_on_error
        · exact Or.inl rfl
        · exact Or.inr ⟨rfl, Or.inr rfl⟩
  apply h.keep ht (by rw [hk])
  · exact fun hbusy => (hnext.resolve_left hbusy).1
  · intro hin
    rw [hattached] at hin
    exact hcapacity.trans (h.room i hin)
  · intro hcreating
    simp [hcreating] at hnext
  · intro hlocated
    rcases hnext with hn | ⟨-, hn | hn⟩ <;> simp [hn, call.located] at hlocated
  · rintro (hnone | hmaking)
    · rw [hk] at hnone
      obtain ⟨hzero, hnobody⟩ := h.untouched (Or.inl hnone)
      exact ⟨hzero, hnobody, hattached.trans (hnobody i)⟩
    · rcases hnext with hn | ⟨-, hn | hn⟩ <;> simp [hn, call.making] at hmaking

omit [DecidableEq ι] in
/-- Steps of the semaphore. -/
theorem MemOrder.of_sem (h : MemOrder size w) (sem : Option Nat) (inside : List ι) :
    MemOrder size { w with kernel := { w.kernel with sem }, inside } :=
  ⟨h.sizes, h.room, h.creating, h.located, h.untouched, h.behind, h.kept⟩

theorem MemOrder.dettach (h : MemOrder size w) :
    MemOrder size { w with bufs := Function.update w.bufs i (w.bufs i).dettach } := by
  have hleft := dettached (i := i) w.bufs
  constructor
  · intro j hj
    rw [(hleft j).next] at hj
    exact (hleft j).memory_size.trans (h.sizes j hj)
  · exact fun j hj => (hleft j).capacity.trans (h.room j ((hleft j).attached hj))
  · exact fun j hj => h.creating j (by rwa [(hleft j).next] at hj)
  · exact fun j hj => h.located j (by rwa [(hleft j).next] at hj)
  · intro hpremise
    have hmade : w.kernel.mem = none ∨ ∃ j, (w.bufs j).next.making = true := by
      refine hpremise.imp_right fun ⟨j, hj⟩ => ⟨j, ?_⟩
      rwa [(hleft j).next] at hj
    obtain ⟨hzero, hnobody⟩ := h.untouched hmade
    refine ⟨hzero, fun j => ?_⟩
    by_contra hin
    have hold := (hleft j).attached (by simpa using hin)
    rw [hnobody j] at hold
    cases hold
  · exact h.behind
  · exact h.kept

omit [DecidableEq ι] in
/-- A store is within the size, and by somebody who is attached. -/
theorem MemOrder.store (h : MemOrder size w) {pos : Nat} {byte : UInt8}
    (hattached : (w.bufs i).attached_ = true) (hpos : pos < (w.bufs i).capacity_) :
    MemOrder size { w with
      kernel := { w.kernel with bytes := Function.update w.kernel.bytes pos byte }
      stored := Function.update w.stored pos byte } where
  sizes := h.sizes
  room := h.room
  creating := h.creating
  located := h.located
  untouched := by
    intro hpremise
    have hnobody := (h.untouched hpremise).2 i
    rw [hattached] at hnobody
    cases hnobody
  behind := by
    intro p hp
    rw [h.room i hattached] at hpos
    have hne : p ≠ pos := by omega
    simp only [Function.update_of_ne hne]
    exact h.behind p hp
  kept := by
    simp only [h.kept]

end

/-! ## Each run -/

/-- At most one process is between `acquire` and `release`, and no other gets in before it is out,
if and only if who gets in takes a value of 1, the semaphore is only initialized when nobody is
inside, and nobody releases for another one. -/
theorem one_inside_iff (as : List (action ι)) :
    Always step Exclusive ({} : world ι) as ↔ Meets step Guarded ({} : world ι) as :=
  always_iff_meets (P := Exclusive) (fun _ h => h) (fun _ _ _ => exclusive_step)
    (fun _ _ _ => open_step) (Exclusive.nobody rfl) as

/-- Two processes find no semaphore. The second one initializes it again, and both are inside. -/
example :
    (exec step ({} : world Bool)
      ([.attach true 4 true {}, .attach false 4 true {}] ++ List.replicate 8 (.go_on true {}) ++
        [.acquire true true] ++ List.replicate 6 (.go_on false {}) ++ [.acquire false true])).map
      world.inside = some [false, true] := by
  decide

section
variable {w w' : world ι} {size : Nat}

/-- What attaches in turn keep. -/
structure Orderly (size : Nat) (w : world ι) : Prop where
  alone : Alone w
  sem : SemOrder w
  mem : MemOrder size w

omit [DecidableEq ι] in
theorem orderly_start : Orderly size ({} : world ι) where
  alone := fun _ _ hi _ => absurd rfl hi
  sem := ⟨fun _ => ⟨rfl, nofun⟩, nofun, nofun, nofun⟩
  mem := ⟨fun _ hi => absurd rfl hi, nofun, nofun, nofun, fun _ => ⟨fun _ => rfl, fun _ => rfl⟩,
    fun _ _ => rfl, rfl⟩

theorem orderly_step {a : action ι} (h : Orderly size w) (ha : InTurn size w a)
    (hs : step w a = some w') : Orderly size w' := by
  obtain ⟨halone, hsem, hmem⟩ := h
  cases a with
  | attach i mem_size create_on_error a =>
    obtain ⟨hidle, rfl, hok⟩ := ha
    simp only [step, hidle i, if_true] at hs
    obtain rfl := Option.some.inj hs
    have ht : Turned w _ i := turned_update (k := w.kernel)
      (b := (w.bufs i).attach w.kernel a mem_size create_on_error) fun j _ => hidle j
    have hb := Function.update_self i
      ((w.bufs i).attach w.kernel a mem_size create_on_error) w.bufs
    exact ⟨ht.alone, hsem.attach ht (hidle i) rfl hb hok, hmem.attach ht (hidle i) rfl hb⟩
  | go_on i a =>
    obtain ⟨k, b, hgo, rfl⟩ := step_go_on hs
    have ht : Turned w _ i := turned_update (k := k) (b := b) (halone.idle (go_on_busy hgo))
    have hgo' : (w.bufs i).go_on w.kernel a = some (k, Function.update w.bufs i b i) := by
      rw [Function.update_self]
      exact hgo
    exact ⟨ht.alone, hsem.go_on ht hgo' fun hn => ha (Or.inl hn),
      hmem.go_on ht hgo' fun hn => ha (Or.inr hn)⟩
  | dettach i =>
    simp only [step] at hs
    split at hs
    next hidle =>
      obtain rfl := Option.some.inj hs
      refine ⟨?_, hsem.dettach, hmem.dettach⟩
      intro j l hj hl
      simp only [(dettached w.bufs _).next] at hj hl
      exact halone j l hj hl
    next => cases hs
  | acquire i ok =>
    rcases step_acquire hs with ⟨-, rfl⟩ | ⟨v, hidle, hopened, -, hv, rfl⟩
    · exact ⟨halone, hsem, hmem⟩
    · exact ⟨halone, hsem.acquire hidle hopened hv, hmem.of_sem _ _⟩
  | release i ok =>
    rcases step_release hs with ⟨-, rfl⟩ | ⟨-, -, -, rfl⟩
    · exact ⟨halone, hsem, hmem⟩
    · exact ⟨halone, hsem.release ha, hmem.of_sem _ _⟩
  | store i pos byte =>
    simp only [step] at hs
    split at hs
    next hin =>
      obtain rfl := Option.some.inj hs
      exact ⟨halone, ⟨hsem.none_sem, hsem.creating, hsem.fresh, hsem.sum⟩, hmem.store hin.1 hin.2.1⟩
    next => cases hs

end

/-- When attaches are made in turn, at most one process is between `acquire` and `release`, and what
is stored in the memory stays there: no attach clears or cuts it. -/
theorem attaches_in_turn (size : Nat) (as : List (action ι))
    (h : Meets step (InTurn size) ({} : world ι) as) :
    Always step (fun w => Exclusive w ∧ w.kernel.bytes = w.stored) ({} : world ι) as :=
  (always_of_meets (fun _ _ _ => orderly_step) orderly_start h).mono
    fun _ h => ⟨h.sem.exclusive, h.mem.kept⟩

instance [Fintype ι] (size : Nat) (w : world ι) : (a : action ι) → Decidable (InTurn size w a)
  | .attach _ mem_size _ a =>
    inferInstanceAs (Decidable ((∀ j, (w.bufs j).next = .idle) ∧ mem_size = size ∧ a.ok = true))
  | .go_on i a => inferInstanceAs
      (Decidable ((w.bufs i).next = .sem_init ∨ (w.bufs i).next = .shm_open → a.ok = true))
  | .release i _ => inferInstanceAs (Decidable (i ∈ w.inside))
  | .dettach _ | .acquire _ _ | .store _ _ _ => isTrue trivial

/-- The first process makes both and stores a byte, and the second one attaches behind it. -/
theorem attaches_in_turn_witness :
    Always step (fun w => Exclusive w ∧ w.kernel.bytes = w.stored) ({} : world Bool)
      ([.attach true 4 true {}] ++ List.replicate 8 (.go_on true {}) ++
        [.acquire true true, .store true 0 7, .release true true, .attach false 4 true {}] ++
        List.replicate 3 (.go_on false {}) ++ [.acquire false true]) :=
  attaches_in_turn 4 _ (by decide)

end socle.shmbuffer
