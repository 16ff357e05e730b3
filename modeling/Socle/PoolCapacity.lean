-- The capacity law of the pool. Any number of buffers and of plain chunks use
-- one pool, in any order of calls. A chunk is never smaller than it was asked
-- for, and it says how large it really is. `buffer::assign` breaks this: it
-- writes down the size that it asked for, not the size that it got.
import Socle.Lib.Run
import Socle.Buffer

namespace socle.membuf

open mempool lib.ledger

/-! ## Runs -/

/-- The world, the buffers that live in it, and the chunks that somebody holds by hand. -/
structure State where
  w : World
  bufs : Nat → Option buffer
  vars : Nat → Option mem_chunk

/-- What a program can do with the pool and the buffers. `i` and `j` name buffers, `v` names a
chunk that is held by hand. -/
inductive op
  | acquire (v n : Nat)
  | release (v : Nat)
  | ctor (i s : Nat)
  | ctor_cap (i s c : Nat)
  | ctor_bytes (i d s : Nat)
  | ctor_bytes_cap (i d s c : Nat)
  | ctor_view (i d s c : Nat)
  | ctor_own (i v s c : Nat)
  | copy_ctor (i j : Nat)
  | move_ctor (i j : Nat)
  | dtor (i : Nat)
  | copy_assign (i j : Nat)
  | move_assign (i j : Nat)
  | swap (i j : Nat)
  | detach (i v : Nat)
  | assign (i d s : Nat)
  | assign_view (i d s c : Nat)
  | assign_own (i v s c : Nat)
  | attach (i v s : Nat)
  | capacity (i c : Nat)
  | size (i s : Nat)
  | clear (i : Nat)
  | flush (i n : Nat)
  | append (i d s : Nat)
  | append_buffer (i j : Nat)

/-- A chunk that somebody has to give back. -/
def real (c : mem_chunk) : Option mem_chunk :=
  if c.ptr = 0 then none else some c

/-- The chunk that a buffer gives back when it goes. -/
def buffer.owned (b : buffer) : Option mem_chunk :=
  if b.free_ then real { ptr := b.data_, capacity := b.capacity_ } else none

namespace State

/-- Buffer `i` becomes `b`. -/
def set (st : State) (i : Nat) (r : buffer × World) : State :=
  { st with w := r.2, bufs := Function.update st.bufs i (some r.1) }

/-- Chunk `v` is `c` from now on. -/
def hold (st : State) (v : Nat) (c : Option mem_chunk) : State :=
  { st with vars := Function.update st.vars v c }

/-- A buffer with the name `i` can begin. -/
def fresh (st : State) (i : Nat) : Option Unit :=
  if st.bufs i = none then some () else none

/-- A chunk with the name `v` can be taken. -/
def unheld (st : State) (v : Nat) : Option Unit :=
  if st.vars v = none then some () else none

end State

open State

/-- One call. It is refused when it names a buffer or a chunk that is not there, or a name that
is taken, and when the code throws. -/
def step (A : Allocator) (st : State) : op → Option State
  | .acquire v n => do
    st.unheld v
    let (c, w) := st.w.acquire A n
    return { st with w }.hold v (some c)
  | .release v => do
    let c ← st.vars v
    return { st with w := st.w.release c }.hold v none
  | .ctor i s => do
    st.fresh i
    return st.set i (ctor A s st.w)
  | .ctor_cap i s c => do
    st.fresh i
    let r ← ctor_cap A s c st.w
    return st.set i r
  | .ctor_bytes i d s => do
    st.fresh i
    return st.set i (ctor_bytes A d s st.w)
  | .ctor_bytes_cap i d s c => do
    st.fresh i
    let r ← ctor_bytes_cap A d s c st.w
    return st.set i r
  | .ctor_view i d s c => do
    st.fresh i
    let b ← ctor_own d s c false
    return st.set i (b, st.w)
  | .ctor_own i v s c => do
    st.fresh i
    let m ← st.vars v
    let b ← ctor_own m.ptr s c true
    return (st.set i (b, st.w)).hold v none
  | .copy_ctor i j => do
    st.fresh i
    let x ← st.bufs j
    return st.set i (copy_ctor A x st.w)
  | .move_ctor i j => do
    st.fresh i
    let x ← st.bufs j
    return (st.set j ((move_ctor x).2, st.w)).set i ((move_ctor x).1, st.w)
  | .dtor i => do
    let b ← st.bufs i
    return { st with w := (b.release st.w).2, bufs := Function.update st.bufs i none }
  | .copy_assign i j => do
    let b ← st.bufs i
    let x ← st.bufs j
    return if i = j then st else st.set i (b.copy_assign A x st.w)
  | .move_assign i j => do
    let b ← st.bufs i
    let x ← st.bufs j
    if i = j then
      return st.set i (b.move_assign_self st.w)
    else
      let (b, x, w) := b.move_assign x st.w
      return (st.set j (x, w)).set i (b, w)
  | .swap i j => do
    let b ← st.bufs i
    let x ← st.bufs j
    return (st.set i ((b.swap x).1, st.w)).set j ((b.swap x).2, st.w)
  | .detach i v => do
    let b ← st.bufs i
    st.unheld v
    -- whoever takes the pointer of a buffer that owns its memory has to give the chunk back
    return (st.set i (b.detach.2, st.w)).hold v b.owned
  | .assign i d s => do
    let b ← st.bufs i
    return st.set i (b.assign A d s st.w)
  | .assign_view i d s c => do
    let b ← st.bufs i
    return st.set i (b.assign_own d s c false st.w)
  | .assign_own i v s c => do
    let b ← st.bufs i
    let m ← st.vars v
    return (st.set i (b.assign_own m.ptr s c true st.w)).hold v none
  | .attach i v s => do
    let b ← st.bufs i
    let m ← st.vars v
    return (st.set i (b.attach m.ptr s st.w)).hold v none
  | .capacity i c => do
    let b ← st.bufs i
    return st.set i (b.capacity A c st.w).2
  | .size i s => do
    let b ← st.bufs i
    return st.set i (b.size A s st.w).2
  | .clear i => do
    let b ← st.bufs i
    return st.set i (b.clear, st.w)
  | .flush i n => do
    let b ← st.bufs i
    return st.set i (b.flush n st.w)
  | .append i d s => do
    let b ← st.bufs i
    return st.set i (b.append A d s st.w)
  | .append_buffer i j => do
    let b ← st.bufs i
    let x ← st.bufs j
    return st.set i (b.append A x.data_ x.size_ st.w)

/-- A program begins with a pool, with no buffer and with no chunk. -/
def start (pool : memPool) (mem : Nat → UInt8) : State :=
  { w := { pool, mem }, bufs := fun _ => none, vars := fun _ => none }

/-! ## Who holds what -/

/-- Who can hold a chunk. -/
inductive holder
  | buf (i : Nat)
  | var (v : Nat)
deriving DecidableEq

/-- What each holder has to give back. -/
def State.ledger (st : State) : holder → Option mem_chunk
  | .buf i => (st.bufs i).bind buffer.owned
  | .var v => (st.vars v).bind real

/-- The answer was large enough, and says how much memory there is. -/
def Handout.Right (h : Handout) : Prop :=
  h.asked ≤ h.chunk.capacity ∧ h.extent = some h.chunk.capacity

variable {ι κ : Type*}

/-- The pool agrees with ledger `T`, every answer so far was right, and what a holder has was
handed out to somebody. -/
structure World.Sound (w : World) (T : ι → Option mem_chunk) : Prop where
  use_pool : w.use_pool = true
  pool : mempool.Sound w.pool T
  right : ∀ h ∈ w.handed, h.Right
  handed_out : ∀ i c, T i = some c →
    ∃ h ∈ w.handed, h.chunk.ptr = c.ptr ∧ h.chunk.capacity = c.capacity

variable {w : World} {T : ι → Option mem_chunk} {i j : ι}

theorem real_some {c d : mem_chunk} (h : real c = some d) : d = c ∧ c.ptr ≠ 0 := by
  unfold real at h
  split at h
  · cases h
  · cases h
    exact ⟨rfl, ‹_›⟩

theorem owned_some {b : buffer} {d : mem_chunk} (h : b.owned = some d) :
    d = { ptr := b.data_, capacity := b.capacity_ } ∧ b.free_ = true ∧ b.data_ ≠ 0 := by
  unfold buffer.owned at h
  split at h
  next hf =>
    obtain ⟨rfl, hne⟩ := real_some h
    exact ⟨rfl, hf, hne⟩
  next => cases h

/-- Each holder of `T'` holds what its own holder of `T` holds, but for the name of the chunk's
type. -/
theorem World.Sound.rename {T' : κ → Option mem_chunk} (h : w.Sound T) (f : κ → ι)
    (hf : ∀ j c, T' j = some c → ∃ d, T (f j) = some d ∧ c.ptr = d.ptr ∧
      c.capacity = d.capacity ∧ (c.pool_type = .HEAP → d.pool_type = .HEAP))
    (inj : ∀ j j' c c', T' j = some c → T' j' = some c' → f j = f j' → j = j') :
    w.Sound T' where
  use_pool := h.use_pool
  pool := h.pool.rename f hf inj
  right := h.right
  handed_out := by
    intro j c hc
    obtain ⟨d, hd, hp, hcap, -⟩ := hf j c hc
    rw [hp, hcap]
    exact h.handed_out _ d hd

/-- Holder `i`, who has nothing, gets what holder `j` has. -/
theorem World.Sound.hand_over [DecidableEq ι] (h : w.Sound (Function.update T i none))
    (hij : i ≠ j) {o : Option mem_chunk} (ho : ∀ c, o = some c → ∃ d, T j = some d ∧
      c.ptr = d.ptr ∧ c.capacity = d.capacity ∧ (c.pool_type = .HEAP → d.pool_type = .HEAP)) :
    w.Sound (Function.update (Function.update T i o) j none) := by
  rcases hand_over_names hij ho with ⟨hnames, hinj⟩
  exact h.rename _ hnames hinj

theorem World.Sound.memcpy (h : w.Sound T) (dst src n : Nat) : (w.memcpy dst src n).Sound T :=
  ⟨h.use_pool, h.pool, h.right, h.handed_out⟩

section
variable [DecidableEq ι]

theorem update_none (hi : T i = none) : Function.update T i none = T := by
  rw [← hi, Function.update_eq_self]

/-- A chunk that nobody had goes to holder `i`. -/
theorem World.Sound.acquire (h : w.Sound T) (A : Allocator) (hi : T i = none) (n : Nat) :
    (w.acquire A n).2.Sound (Function.update T i (real (w.acquire A n).1)) := by
  by_cases hn : n = 0
  · subst hn
    have hnull : w.pool.acquire A 0 = ({ ptr := 0, capacity := 0 }, w.pool) := by
      simp [memPool.acquire]
    simp only [World.acquire, hnull, real, if_pos]
    rw [update_none hi]
    refine ⟨h.use_pool, h.pool, ?_, ?_⟩
    · intro g hg
      rcases List.mem_cons.mp hg with rfl | hg
      · exact ⟨Nat.le_refl 0, by simp [extent]⟩
      · exact h.right g hg
    · intro j c hc
      obtain ⟨g, hg, heq⟩ := h.handed_out j c hc
      exact ⟨g, List.mem_cons_of_mem _ hg, heq⟩
  · obtain ⟨hs, hle⟩ := h.pool.acquire A (i := i) hn
    obtain ⟨hne, -, hback⟩ := hs.backed i _ (Function.update_self ..)
    have hreal : real (w.pool.acquire A n).1 = some (w.pool.acquire A n).1 := by
      unfold real
      rw [if_neg hne]
    simp only [World.acquire, hreal]
    refine ⟨h.use_pool, hs, ?_, ?_⟩
    · intro g hg
      rcases List.mem_cons.mp hg with rfl | hg
      · exact ⟨hle, hs.extent_of_backed hne hback⟩
      · exact h.right g hg
    · intro j c hc
      rcases update_eq_some.mp hc with ⟨rfl, hgot⟩ | ⟨-, hc⟩
      · cases hgot
        exact ⟨_, List.mem_cons_self, rfl, rfl⟩
      · obtain ⟨g, hg, heq⟩ := h.handed_out j c hc
        exact ⟨g, List.mem_cons_of_mem _ hg, heq⟩

/-- Holder `i` gives its chunk back. -/
theorem World.Sound.release (h : w.Sound T) {c : mem_chunk} (hi : T i = real c) :
    (w.release c).Sound (Function.update T i none) := by
  by_cases hnull : c.ptr = 0
  · have hsame : w.release c = w := by
      simp [World.release, memPool.release, hnull]
    have hnone : T i = none := by
      rw [hi, real, if_pos hnull]
    rw [hsame, update_none hnone]
    exact h
  · have hsome : T i = some c := by
      rw [hi, real, if_neg hnull]
    refine ⟨h.use_pool, h.pool.release hsome, h.right, ?_⟩
    intro j e he
    obtain ⟨-, he⟩ := update_none_eq_some.mp he
    exact h.handed_out j e he

/-! ## What each function of the buffer keeps -/

/-- After a function that gives buffer and world `r`, the pool agrees with the ledger in which
holder `i` has what the buffer owns. -/
def Gives (T : ι → Option mem_chunk) (i : ι) (r : buffer × World) : Prop :=
  r.2.Sound (Function.update T i r.1.owned)

/-- The chunk that `acquire` gave belongs to buffer `b` now. -/
theorem World.Sound.acquire_for (h : w.Sound T) (A : Allocator) (hi : T i = none) {n : Nat}
    {b : buffer} (hd : b.data_ = (w.acquire A n).1.ptr)
    (hc : b.capacity_ = (w.acquire A n).1.capacity) : Gives T i (b, (w.acquire A n).2) := by
  refine (h.acquire A hi n).rename (fun j => j) ?_ (fun _ _ _ _ _ _ hj => hj)
  intro j c hj
  rcases update_eq_some.mp hj with ⟨rfl, hgot⟩ | ⟨hji, hj⟩
  · rw [Function.update_self]
    obtain ⟨rfl, -, hne⟩ := owned_some hgot
    refine ⟨(w.acquire A n).1, ?_, hd, hc, fun ht => by cases ht⟩
    rw [real, if_neg]
    rwa [← hd]
  · rw [Function.update_of_ne hji]
    exact ⟨c, hj, rfl, rfl, fun ht => ht⟩

theorem owned_of_not_free {b : buffer} (hb : b.free_ = false) : b.owned = none := by
  simp [buffer.owned, hb]

theorem owned_of_null {b : buffer} (hb : b.data_ = 0) : b.owned = none := by
  simp [buffer.owned, real, hb]

/-- The owner of a buffer's memory gives it back. -/
theorem World.Sound.dealloc (h : w.Sound T) {b : buffer} (hi : T i = b.owned) :
    (b.dealloc w).Sound (Function.update T i none) := by
  unfold buffer.dealloc
  rw [if_pos h.use_pool]
  by_cases hf : b.free_ = true
  · have hreal : T i = real { ptr := b.data_, capacity := b.capacity_ } := by
      rw [hi, buffer.owned, if_pos hf]
    by_cases hc : b.capacity_ > 0
    · rw [if_pos ⟨hf, hc⟩]
      exact h.release hreal
    · rw [if_neg (fun hfc => hc hfc.2)]
      have hnone : T i = none := by
        cases ht : T i with
        | none => rfl
        | some c =>
          rw [hreal] at ht
          obtain ⟨rfl, -⟩ := real_some ht
          exact absurd (h.pool.backed i _ (hreal.trans ht)).2.1 hc
      rw [update_none hnone]
      exact h
  · rw [if_neg (fun hfc => hf hfc.1), update_none]
    · exact h
    · rw [hi, owned_of_not_free (by simpa using hf)]

/-- The same for the way in which `operator=(buffer&&)` does it. -/
theorem World.Sound.drop_own (h : w.Sound T) {b : buffer} (hi : T i = b.owned) :
    (b.drop_own w).Sound (Function.update T i none) := by
  unfold buffer.drop_own
  rw [if_pos h.use_pool]
  by_cases hf : b.free_ = true ∧ b.data_ ≠ 0
  · rw [if_pos hf]
    refine h.release ?_
    rw [hi, buffer.owned, if_pos hf.1]
  · rw [if_neg hf, update_none]
    · exact h
    · rw [hi]
      by_cases hfree : b.free_ = true
      · exact owned_of_null (by simpa [hfree] using hf)
      · exact owned_of_not_free (by simpa using hfree)

theorem gives_nothing (h : w.Sound T) (hi : T i = none) {b : buffer} (hb : b.owned = none) :
    Gives T i (b, w) := by
  unfold Gives
  rw [hb, update_none hi]
  exact h

theorem gives_same (h : w.Sound T) {b : buffer} (hi : T i = b.owned) : Gives T i (b, w) := by
  unfold Gives
  rw [← hi, Function.update_eq_self]
  exact h

theorem Gives.resized {b b' : buffer} (h : Gives T i (b, w)) (ho : b'.owned = b.owned) :
    Gives T i (b', w) := by
  unfold Gives at *
  rw [ho]
  exact h

theorem Gives.after_dealloc {r : buffer × World} (h : Gives (Function.update T i none) i r) :
    Gives T i r := by
  unfold Gives at *
  rwa [Function.update_idem] at h

variable (A : Allocator)

theorem ctor_gives (h : w.Sound T) (hi : T i = none) (s : Nat) : Gives T i (ctor A s w) := by
  unfold ctor
  rw [if_pos h.use_pool]
  exact h.acquire_for A hi rfl rfl

theorem ctor_cap_gives (h : w.Sound T) (hi : T i = none) {s c : Nat} {r : buffer × World}
    (hr : ctor_cap A s c w = some r) : Gives T i r := by
  unfold ctor_cap at hr
  rw [if_pos h.use_pool] at hr
  split at hr
  · cases hr
  · cases hr
    exact h.acquire_for A hi rfl rfl

theorem ctor_bytes_gives (h : w.Sound T) (hi : T i = none) (d s : Nat) :
    Gives T i (ctor_bytes A d s w) := by
  unfold ctor_bytes
  rw [if_pos h.use_pool]
  split
  · exact (h.acquire_for A hi rfl rfl).memcpy _ _ _
  · exact gives_nothing h hi (owned_of_null rfl)

theorem ctor_bytes_cap_gives (h : w.Sound T) (hi : T i = none) {d s c : Nat}
    {r : buffer × World} (hr : ctor_bytes_cap A d s c w = some r) : Gives T i r := by
  unfold ctor_bytes_cap at hr
  rw [if_pos h.use_pool] at hr
  split at hr
  · cases hr
  split at hr
  · rw [Option.some.injEq] at hr
    subst hr
    split
    · exact (h.acquire_for A hi rfl rfl).memcpy _ _ _
    · exact h.acquire_for A hi rfl rfl
  · cases hr
    exact gives_nothing h hi (owned_of_null rfl)

theorem copy_ctor_gives (h : w.Sound T) (hi : T i = none) (x : buffer) :
    Gives T i (copy_ctor A x w) := by
  unfold copy_ctor
  simp only [h.use_pool, if_true]
  by_cases hc : x.capacity_ ≠ 0
  · rw [if_pos hc]
    by_cases hf : x.free_ = true
    · simp only [hf, if_true]
      split
      · exact (h.acquire_for A hi rfl (if_pos h.use_pool)).memcpy _ _ _
      · exact h.acquire_for A hi rfl (if_pos h.use_pool)
    · simp only [hf]
      exact gives_nothing h hi (owned_of_not_free rfl)
  · rw [if_neg hc]
    exact gives_nothing h hi (owned_of_null rfl)

theorem copy_assign_gives (h : w.Sound T) {b : buffer} (hi : T i = b.owned) (x : buffer) :
    Gives T i (b.copy_assign A x w) := by
  have hd := h.dealloc hi
  have hnone : Function.update T i none i = none := Function.update_self ..
  unfold buffer.copy_assign
  by_cases hx : x.size_ > b.capacity_ ∨ b.data_ = 0
  · simp only [if_pos hx, hd.use_pool]
    by_cases hf : x.free_ = true
    · simp only [hf, if_true]
      have hg := fun b hb hc => (hd.acquire_for A hnone (n := x.capacity_) (b := b) hb hc)
      split
      · exact ((hg _ rfl rfl).resized rfl).after_dealloc.memcpy _ _ _
      · exact ((hg _ rfl rfl).resized rfl).after_dealloc
    · simp only [hf, if_false, Bool.false_eq_true, and_false]
      exact Gives.after_dealloc (gives_nothing hd hnone (owned_of_not_free rfl))
  · simp only [if_neg hx]
    split
    · exact ((gives_same h hi).resized rfl).memcpy _ _ _
    · exact (gives_same h hi).resized rfl

/-- A new chunk is taken first and the old one is given back after it, as `capacity` does. -/
theorem World.Sound.replace (h : w.Sound T) {b b' : buffer} (hi : T i = b.owned) {n : Nat}
    (hd : b'.data_ = (w.acquire A n).1.ptr) (hc : b'.capacity_ = (w.acquire A n).1.capacity) {w' : World} (hw : ∀ T' : Option ι → Option mem_chunk,
      (w.acquire A n).2.Sound T' → w'.Sound T') : Gives T i (b', b.dealloc w') := by
  -- for a while there is one holder more, `none`, who has the new chunk
  have hlift : w.Sound (fun o : Option ι => o.bind T) := by
    refine h.rename (fun o => o.getD i) ?_ ?_
    · intro o c ho
      cases o with
      | none => cases ho
      | some j => exact ⟨c, ho, rfl, rfl, fun ht => ht⟩
    · intro o o' c c' ho ho' heq
      cases o with
      | none => cases ho
      | some j =>
        cases o' with
        | none => cases ho'
        | some j' => exact congrArg some heq
  have hnew := hw _ (hlift.acquire_for A (i := none) rfl hd hc)
  have hold := World.Sound.dealloc hnew (i := some i) (b := b) hi
  refine World.Sound.rename hold (fun j => if j = i then none else some j) ?_ ?_
  · intro j c hj
    rcases update_eq_some.mp hj with ⟨rfl, hgot⟩ | ⟨hji, hj⟩
    · exact ⟨c, by simpa using hgot, rfl, rfl, fun ht => ht⟩
    · exact ⟨c, by simpa [hji] using hj, rfl, rfl, fun ht => ht⟩
  · intro j j' c c' _ _ heq
    by_cases h₁ : j = i
    · by_cases h₂ : j' = i
      · rw [h₁, h₂]
      · simp [h₁, h₂] at heq
    · by_cases h₂ : j' = i
      · simp [h₁, h₂] at heq
      · simpa [h₁, h₂] using heq

theorem capacity_gives (h : w.Sound T) {b : buffer} (hi : T i = b.owned) (c : Nat) :
    Gives T i (b.capacity A c w).2 := by
  unfold buffer.capacity
  by_cases hc : b.capacity_ ≥ c
  · rw [if_pos hc]
    exact gives_same h hi
  · simp only [if_neg hc, h.use_pool, if_true]
    by_cases hs : b.size_ ≠ 0
    · simp only [if_pos hs, buffer.dealloc_use_pool, World.memcpy_use_pool,
        World.acquire_use_pool, h.use_pool, if_true]
      exact h.replace A hi rfl rfl fun T' hT => hT.memcpy _ _ _
    · simp only [if_neg hs, buffer.dealloc_use_pool, World.acquire_use_pool, h.use_pool, if_true]
      exact h.replace A hi rfl rfl fun T' hT => hT

theorem size_gives (h : w.Sound T) {b : buffer} (hi : T i = b.owned) (s : Nat) :
    Gives T i (b.size A s w).2 := by
  unfold buffer.size
  by_cases hs : b.capacity_ < s
  · simp only [if_pos hs]
    exact (capacity_gives A h hi s).resized rfl
  · simp only [if_neg hs]
    exact (gives_same h hi).resized rfl

theorem flush_gives (h : w.Sound T) {b : buffer} (hi : T i = b.owned) (n : Nat) :
    Gives T i (b.flush n w) := by
  unfold buffer.flush
  split
  · exact (gives_same h hi).resized rfl
  · exact ((gives_same h hi).resized rfl).memcpy _ _ _

theorem append_gives (h : w.Sound T) {b : buffer} (hi : T i = b.owned) (d s : Nat) :
    Gives T i (b.append A d s w) := by
  unfold buffer.append
  by_cases hs : s ≠ 0
  · rw [if_pos hs]
    by_cases hc : b.capacity_ < b.size_ + s
    · simp only [if_pos hc]
      exact ((capacity_gives A h hi (b.size_ + s)).resized rfl).memcpy _ _ _
    · simp only [if_neg hc]
      exact ((gives_same h hi).resized rfl).memcpy _ _ _
  · rw [if_neg hs]
    exact gives_same h hi

/-- When `assign` asks for `s` bytes, it gets exactly `s` bytes: the heap serves it, or the
chunk has just this size. The old memory is given back before. -/
def AssignFits (b : buffer) (s : Nat) (w : World) : Prop :=
  s ≤ b.capacity_ ∨
    ∀ id, pick_bucket s = some id →
      id.sz = s ∨ ((b.dealloc w).pool.bucket id).bucket = []

/-- `assign` keeps the law only when it gets exactly what it asks for. -/
theorem assign_gives (h : w.Sound T) {b : buffer} (hi : T i = b.owned) (d : Nat) {s : Nat}
    (hf : AssignFits b s w) : Gives T i (b.assign A d s w) := by
  have hd := h.dealloc hi
  have hnone : Function.update T i none i = none := Function.update_self ..
  unfold buffer.assign
  by_cases hs : s > b.capacity_
  · simp only [if_pos hs, hd.use_pool, if_true]
    have hexact : s = ((b.dealloc w).acquire A s).1.capacity := by
      rcases hf with hle | hf
      · omega
      · exact (hd.pool.acquire_exact A (by omega) hf).symm
    have hg := fun b hb hc => hd.acquire_for A hnone (n := s) (b := b) hb hc
    split
    · exact ((hg _ rfl hexact).resized rfl).after_dealloc.memcpy _ _ _
    · exact ((hg _ rfl hexact).resized rfl).after_dealloc
  · simp only [if_neg hs]
    split
    · exact ((gives_same h hi).resized rfl).memcpy _ _ _
    · exact (gives_same h hi).resized rfl

end

/-! ## The steps -/

/-- The invariant of the runs: the pool agrees with what the buffers own and what is held by
hand. -/
def Inv (st : State) : Prop :=
  st.w.Sound st.ledger

/-- The condition on a call. `assign` gets exactly what it asks for, and a chunk that a buffer
takes over comes with its own capacity. -/
def Fits (st : State) : op → Prop
  | .assign i _ s => ∀ b, st.bufs i = some b → AssignFits b s st.w
  | .ctor_own _ v _ c | .assign_own _ v _ c | .attach _ v c =>
    ∀ m, st.vars v = some m → m.ptr = 0 ∨ c = m.capacity
  | _ => True

theorem ledger_set (st : State) (i : Nat) (r : buffer × World) :
    (st.set i r).ledger = Function.update st.ledger (.buf i) r.1.owned := by
  funext j
  cases j with
  | buf k =>
    by_cases hk : k = i
    · subst hk
      simp [ledger, State.set]
    · simp [ledger, State.set, hk]
  | var v => simp [ledger, State.set]

theorem ledger_hold (st : State) (v : Nat) (c : Option mem_chunk) :
    (st.hold v c).ledger = Function.update st.ledger (.var v) (c.bind real) := by
  funext j
  cases j with
  | buf k => simp [ledger, hold]
  | var u =>
    by_cases hu : u = v
    · subst hu
      simp [ledger, hold]
    · simp [ledger, hold, hu]

theorem ledger_drop (st : State) (i : Nat) (w : World) :
    { st with w, bufs := Function.update st.bufs i none }.ledger =
      Function.update st.ledger (.buf i) none := by
  funext j
  cases j with
  | buf k =>
    by_cases hk : k = i
    · subst hk
      simp [ledger]
    · simp [ledger, hk]
  | var v => simp [ledger]

theorem fresh_some {st : State} {i : Nat} {u : Unit} : st.fresh i = some u ↔ st.bufs i = none := by
  simp [fresh]

theorem unheld_some {st : State} {v : Nat} {u : Unit} :
    st.unheld v = some u ↔ st.vars v = none := by
  simp [unheld]

theorem inv_set {st : State} {i : Nat} {r : buffer × World}
    (h : Gives st.ledger (.buf i) r) : Inv (st.set i r) := by
  unfold Inv
  rw [ledger_set]
  exact h

theorem ledger_fresh {st : State} {i : Nat} (h : st.bufs i = none) :
    st.ledger (.buf i) = none := by
  simp [ledger, h]

theorem ledger_buf {st : State} {i : Nat} {b : buffer} (h : st.bufs i = some b) :
    st.ledger (.buf i) = b.owned := by
  simp [ledger, h]

theorem ledger_var {st : State} {v : Nat} {m : mem_chunk} (h : st.vars v = some m) :
    st.ledger (.var v) = real m := by
  simp [ledger, h]

/-- Buffer `i`, which owns nothing any more, takes over the chunk of `v`. -/
theorem inv_take_over {st : State} {w : World} {i v : Nat} {m : mem_chunk} {b : buffer}
    (h : w.Sound (Function.update st.ledger (.buf i) none)) (hv : st.vars v = some m)
    (hd : b.data_ = m.ptr) (hc : m.ptr = 0 ∨ b.capacity_ = m.capacity) :
    Inv ((st.set i (b, w)).hold v none) := by
  unfold Inv
  rw [ledger_hold, ledger_set]
  refine h.hand_over (by simp) fun c hb => ?_
  obtain ⟨rfl, -, hne⟩ := owned_some hb
  simp only [hd] at hne
  refine ⟨m, ?_, hd, hc.resolve_left hne, fun ht => by cases ht⟩
  rw [ledger_var hv, real, if_neg hne]

/-- Buffer `i`, which owns nothing any more, becomes what buffer `j` was, and `j` owns nothing
from then on. -/
theorem inv_move {st : State} {w : World} {i j : Nat} {x x' : buffer}
    (h : w.Sound (Function.update st.ledger (.buf i) none)) (hx : st.bufs j = some x)
    (hij : i ≠ j) (hf : x'.free_ = false) : Inv ((st.set j (x', w)).set i (x, w)) := by
  unfold Inv
  rw [ledger_set, ledger_set, Function.update_comm (by simpa using hij.symm),
    owned_of_not_free hf]
  refine h.hand_over (by simpa using hij) fun c hc => ⟨c, ?_, rfl, rfl, fun ht => ht⟩
  rw [ledger_buf hx]
  exact hc

/-- Two buffers change places. -/
theorem inv_swap {st : State} (h : Inv st) {i j : Nat} {b x : buffer} (hb : st.bufs i = some b)
    (hx : st.bufs j = some x) :
    Inv ((st.set i ((b.swap x).1, st.w)).set j ((b.swap x).2, st.w)) := by
  unfold Inv
  rw [ledger_set, ledger_set]
  refine h.rename (Equiv.swap (holder.buf i) (holder.buf j)) ?_
    (fun _ _ _ _ _ _ heq => (Equiv.swap _ _).injective heq)
  intro k c hk
  refine ⟨c, ?_, rfl, rfl, fun ht => ht⟩
  rcases update_eq_some.mp hk with ⟨rfl, hgot⟩ | ⟨hkj, hk⟩
  · rw [Equiv.swap_apply_right, ledger_buf hb]
    exact hgot
  rcases update_eq_some.mp hk with ⟨rfl, hgot⟩ | ⟨hki, hk⟩
  · rw [Equiv.swap_apply_left, ledger_buf hx]
    exact hgot
  · rwa [Equiv.swap_apply_of_ne_of_ne hki hkj]

theorem ctor_own_some {d s c : Nat} {own : Bool} {b : buffer} (h : ctor_own d s c own = some b) :
    b = { data_ := d, size_ := s, capacity_ := c, free_ := own } := by
  unfold ctor_own at h
  split at h
  · cases h
  · cases h
    rfl

/-- A call that meets the condition keeps the invariant. -/
theorem inv_step (A : Allocator) {st st' : State} {o : op} (h : Inv st) (hf : Fits st o)
    (hs : step A st o = some st') : Inv st' := by
  cases o <;>
    simp only [step, Option.bind_eq_bind, Option.pure_def, Option.bind_eq_some_iff,
      Option.some.injEq, fresh_some, unheld_some, exists_const] at hs
  case acquire v n =>
    obtain ⟨hv, rfl⟩ := hs
    unfold Inv
    rw [ledger_hold]
    exact World.Sound.acquire h A (by simp [ledger, hv]) n
  case release v =>
    obtain ⟨c, hc, rfl⟩ := hs
    unfold Inv
    rw [ledger_hold]
    exact World.Sound.release h (ledger_var hc)
  case ctor i s =>
    obtain ⟨hi, rfl⟩ := hs
    exact inv_set (ctor_gives A h (ledger_fresh hi) s)
  case ctor_cap i s c =>
    obtain ⟨hi, r, hr, rfl⟩ := hs
    exact inv_set (ctor_cap_gives A h (ledger_fresh hi) hr)
  case ctor_bytes i d s =>
    obtain ⟨hi, rfl⟩ := hs
    exact inv_set (ctor_bytes_gives A h (ledger_fresh hi) d s)
  case ctor_bytes_cap i d s c =>
    obtain ⟨hi, r, hr, rfl⟩ := hs
    exact inv_set (ctor_bytes_cap_gives A h (ledger_fresh hi) hr)
  case ctor_view i d s c =>
    obtain ⟨hi, b, hb, rfl⟩ := hs
    have hview : b.owned = none := by
      rw [ctor_own_some hb]
      exact owned_of_not_free rfl
    exact inv_set (gives_nothing h (ledger_fresh hi) hview)
  case ctor_own i v s c =>
    obtain ⟨hi, m, hm, b, hb, rfl⟩ := hs
    rw [ctor_own_some hb]
    refine inv_take_over ?_ hm rfl (hf m hm)
    rw [update_none (ledger_fresh hi)]
    exact h
  case copy_ctor i j =>
    obtain ⟨hi, x, -, rfl⟩ := hs
    exact inv_set (copy_ctor_gives A h (ledger_fresh hi) x)
  case move_ctor i j =>
    obtain ⟨hi, x, hx, rfl⟩ := hs
    have hij : i ≠ j := by
      rintro rfl
      rw [hi] at hx
      cases hx
    refine inv_move ?_ hx hij rfl
    rw [update_none (ledger_fresh hi)]
    exact h
  case dtor i =>
    obtain ⟨b, hb, rfl⟩ := hs
    unfold Inv
    rw [ledger_drop]
    exact World.Sound.dealloc h (ledger_buf hb)
  case copy_assign i j =>
    obtain ⟨b, hb, x, -, rfl⟩ := hs
    split
    · exact h
    · exact inv_set (copy_assign_gives A h (ledger_buf hb) x)
  case move_assign i j =>
    obtain ⟨b, hb, x, hx, hs⟩ := hs
    have hd := World.Sound.drop_own h (ledger_buf hb)
    split at hs
    · cases hs
      refine inv_set (Gives.after_dealloc (gives_nothing hd ?_ (owned_of_not_free rfl)))
      exact Function.update_self ..
    · rename_i hij
      cases hs
      exact inv_move hd hx hij rfl
  case swap i j =>
    obtain ⟨b, hb, x, hx, rfl⟩ := hs
    exact inv_swap h hb hx
  case detach i v =>
    obtain ⟨b, hb, hv, rfl⟩ := hs
    unfold Inv
    rw [ledger_hold, ledger_set, Function.update_comm (by simp),
      owned_of_null (b := b.detach.2) rfl]
    refine World.Sound.hand_over ?_ (by simp) fun c hc => ?_
    · rw [update_none (by simp [ledger, hv])]
      exact h
    · refine ⟨c, ?_, rfl, rfl, fun ht => ht⟩
      rw [Option.bind_eq_some_iff] at hc
      obtain ⟨d, hd, hc⟩ := hc
      rw [ledger_buf hb, hd, (real_some hc).1]
  case assign i d s =>
    obtain ⟨b, hb, rfl⟩ := hs
    exact inv_set (assign_gives A h (ledger_buf hb) d (hf b hb))
  case assign_view i d s c =>
    obtain ⟨b, hb, rfl⟩ := hs
    have hd := World.Sound.dealloc h (ledger_buf hb)
    refine inv_set (Gives.after_dealloc (gives_nothing hd ?_ (owned_of_not_free rfl)))
    exact Function.update_self ..
  case assign_own i v s c =>
    obtain ⟨b, hb, m, hm, rfl⟩ := hs
    exact inv_take_over (World.Sound.dealloc h (ledger_buf hb)) hm rfl (hf m hm)
  case attach i v s =>
    obtain ⟨b, hb, m, hm, rfl⟩ := hs
    exact inv_take_over (World.Sound.dealloc h (ledger_buf hb)) hm rfl (hf m hm)
  case capacity i c =>
    obtain ⟨b, hb, rfl⟩ := hs
    exact inv_set (capacity_gives A h (ledger_buf hb) c)
  case size i s =>
    obtain ⟨b, hb, rfl⟩ := hs
    exact inv_set (size_gives A h (ledger_buf hb) s)
  case clear i =>
    obtain ⟨b, hb, rfl⟩ := hs
    exact inv_set ((gives_same h (ledger_buf hb)).resized rfl)
  case flush i n =>
    obtain ⟨b, hb, rfl⟩ := hs
    exact inv_set (flush_gives h (ledger_buf hb) n)
  case append i d s =>
    obtain ⟨b, hb, rfl⟩ := hs
    exact inv_set (append_gives A h (ledger_buf hb) d s)
  case append_buffer i j =>
    obtain ⟨b, hb, x, -, rfl⟩ := hs
    exact inv_set (append_gives A h (ledger_buf hb) x.data_ x.size_)

/-! ## The laws -/

/-- What the pool promises. Every answer so far was large enough and says how much memory there
is. A buffer that owns memory knows the capacity of the chunk that it acquired, which is all the
memory there is. A chunk that came back has the size of its bucket. -/
structure Lawful (st : State) : Prop where
  handed : ∀ h ∈ st.w.handed, h.Right
  owner : ∀ i b, st.bufs i = some b → b.free_ = true → b.data_ ≠ 0 →
    extent st.w.pool b.data_ = some b.capacity_ ∧
    ∃ h ∈ st.w.handed, h.chunk.ptr = b.data_ ∧ h.chunk.capacity = b.capacity_
  returned : ∀ id, ∀ c ∈ (st.w.pool.bucket id).bucket,
    c.capacity = id.sz ∧ extent st.w.pool c.ptr = some c.capacity

theorem inv_lawful {st : State} (h : Inv st) : Lawful st where
  handed := World.Sound.right h
  owner := by
    intro i b hb hf hd
    have hi : st.ledger (.buf i) = some { ptr := b.data_, capacity := b.capacity_ } := by
      rw [ledger_buf hb, buffer.owned, if_pos hf, real, if_neg hd]
    obtain ⟨hne, -, hback⟩ := h.pool.backed _ _ hi
    exact ⟨h.pool.extent_of_backed hne hback, h.handed_out _ _ hi⟩
  returned := by
    intro id c hc
    obtain ⟨hcv, hcap⟩ := h.pool.free_carved id c hc
    rw [hcap]
    exact ⟨rfl, h.pool.extent_of_backed (h.pool.carved_ne_null hcv) (.carved id hcv rfl)⟩

theorem inv_start (A : Allocator) (canary_sz n₁ n₂ n₃ n₄ n₅ : Nat) (mem : Nat → UInt8) :
    Inv (start (memPool.init A canary_sz n₁ n₂ n₃ n₄ n₅) mem) := by
  have hnone : ∀ k, (start (memPool.init A canary_sz n₁ n₂ n₃ n₄ n₅) mem).ledger k = none := by
    intro k
    cases k <;> rfl
  refine ⟨rfl, Sound.init A canary_sz n₁ n₂ n₃ n₄ n₅ hnone, ?_, ?_⟩
  · intro h hh
    cases hh
  · intro k c hc
    rw [hnone k] at hc
    cases hc

/-- A holder's chunk has the capacity of the memory behind it. -/
theorem World.Sound.extent {w : World} {T : holder → Option mem_chunk} (h : w.Sound T)
    {k : holder} {c : mem_chunk} (hk : T k = some c) :
    mempool.extent w.pool c.ptr = some c.capacity := by
  obtain ⟨hne, -, hback⟩ := h.pool.backed k c hk
  exact h.pool.extent_of_backed hne hback

/-- A buffer that takes over a chunk under another capacity breaks the law. -/
theorem take_over_breaks {st st' : State} {w : World} {i v c : Nat} {m : mem_chunk} {b : buffer}
    (h : w.Sound (Function.update st.ledger (.buf i) none)) (hv : st.vars v = some m)
    (hb : st'.bufs i = some b) (hw : st'.w = w) (hf : b.free_ = true) (hd : b.data_ = m.ptr)
    (hcap : b.capacity_ = c) (hc : ¬ (m.ptr = 0 ∨ c = m.capacity)) : ¬ Lawful st' := by
  intro hl
  rw [not_or] at hc
  have hvar : Function.update st.ledger (.buf i) none (.var v) = some m := by
    rw [Function.update_of_ne (by simp), ledger_var hv, real, if_neg hc.1]
  have howner := (hl.owner i b hb hf (by rw [hd]; exact hc.1)).1
  rw [hw, hd, h.extent hvar, hcap, Option.some.injEq] at howner
  exact hc.2 howner.symm

theorem bufs_set (st : State) (i : Nat) (r : buffer × World) : (st.set i r).bufs i = some r.1 := by
  simp [State.set]

/-- An `assign` that gets more than it asks for breaks the law. -/
theorem assign_breaks (A : Allocator) {st : State} {i d s : Nat} {b : buffer} (h : Inv st)
    (hb : st.bufs i = some b) (hlt : s > b.capacity_) {id : bucket_id}
    (hpick : pick_bucket s = some id) (hsz : id.sz ≠ s)
    (hfull : ((b.dealloc st.w).pool.bucket id).bucket ≠ []) :
    ¬ Lawful (st.set i (b.assign A d s st.w)) := by
  intro hl
  have hd := World.Sound.dealloc h (ledger_buf hb)
  obtain ⟨hs, -⟩ := hd.pool.acquire A (i := .buf i) (n := s) (by omega)
  obtain ⟨hne, -, hback⟩ := hs.backed _ _ (Function.update_self ..)
  have hext := hs.extent_of_backed hne hback
  have hcap : ((b.dealloc st.w).pool.acquire A s).1.capacity = id.sz := by
    rcases acquire_cases A (b.dealloc st.w).pool (n := s) (by omega) with
      ⟨id', c, rest, hpick', hst, heq⟩ | ⟨hempty, -⟩
    · rw [hpick, Option.some.injEq] at hpick'
      subst hpick'
      rw [heq]
      exact (hd.pool.free_carved id c (by rw [hst]; exact List.mem_cons_self)).2
    · exact absurd (hempty id hpick) hfull
  -- the buffer that `assign` leaves, and the pool under it
  have hassign : (b.assign A d s st.w).1.free_ = true ∧
      (b.assign A d s st.w).1.data_ = ((b.dealloc st.w).pool.acquire A s).1.ptr ∧
      (b.assign A d s st.w).1.capacity_ = s ∧
      (b.assign A d s st.w).2.pool = ((b.dealloc st.w).pool.acquire A s).2 := by
    unfold buffer.assign
    simp only [if_pos hlt, hd.use_pool, if_true, World.acquire, true_and]
    split <;> rfl
  obtain ⟨hf, hdata, hc, hpool⟩ := hassign
  have howner := (hl.owner i _ (bufs_set ..) hf (by rw [hdata]; exact hne)).1
  simp only [State.set] at howner
  rw [hpool, hdata, hext, hcap, hc, Option.some.injEq] at howner
  exact hsz howner

/-- The condition is exact: a call that does not meet it breaks the law at once. -/
theorem a_misfit_breaks_the_law (A : Allocator) {st st' : State} {o : op} (h : Inv st)
    (hf : ¬ Fits st o) (hs : step A st o = some st') : ¬ Lawful st' := by
  cases o
  case assign i d s =>
    simp only [step, Option.bind_eq_bind, Option.pure_def, Option.bind_eq_some_iff,
      Option.some.injEq] at hs
    obtain ⟨b, hb, rfl⟩ := hs
    simp only [Fits, hb, Option.some.injEq, forall_eq', AssignFits, not_or, not_forall] at hf
    obtain ⟨hlt, id, hpick, hsz, hfull⟩ := hf
    exact assign_breaks A h hb (by omega) hpick hsz hfull
  case ctor_own i v s c =>
    simp only [step, Option.bind_eq_bind, Option.pure_def, Option.bind_eq_some_iff,
      Option.some.injEq, fresh_some, exists_const] at hs
    obtain ⟨hi, m, hm, b, hb, rfl⟩ := hs
    simp only [Fits, hm, Option.some.injEq, forall_eq'] at hf
    rw [ctor_own_some hb]
    refine take_over_breaks ?_ hm (bufs_set ..) rfl rfl rfl rfl hf
    rw [update_none (ledger_fresh hi)]
    exact h
  case assign_own i v s c =>
    simp only [step, Option.bind_eq_bind, Option.pure_def, Option.bind_eq_some_iff,
      Option.some.injEq] at hs
    obtain ⟨b, hb, m, hm, rfl⟩ := hs
    simp only [Fits, hm, Option.some.injEq, forall_eq'] at hf
    exact take_over_breaks (World.Sound.dealloc h (ledger_buf hb)) hm (bufs_set ..) rfl rfl rfl
      rfl hf
  case attach i v s =>
    simp only [step, Option.bind_eq_bind, Option.pure_def, Option.bind_eq_some_iff,
      Option.some.injEq] at hs
    obtain ⟨b, hb, m, hm, rfl⟩ := hs
    simp only [Fits, hm, Option.some.injEq, forall_eq'] at hf
    exact take_over_breaks (World.Sound.dealloc h (ledger_buf hb)) hm (bufs_set ..) rfl rfl rfl
      rfl hf
  all_goals exact absurd trivial hf

/-- An allocator that puts each block behind all the live ones. -/
def bump : Allocator where
  place _ live _ := 1 + (live.map fun b => b.addr + max b.len 1).sum
  place_ne_null := by
    intro t live n
    omega
  place_apart := by
    intro t live n b hb
    have hle := List.single_le_sum (fun _ _ => Nat.zero_le _) _
      (List.mem_map_of_mem (f := fun b : Block => b.addr + max b.len 1) hb)
    exact Or.inr (by simp only at hle ⊢; omega)

/-- The pool of a program that is started without `SX_MEMSIZE`. -/
def default_pool : memPool :=
  memPool.init bump 0 10000 5000 5000 1000 800

/-- A program keeps the promises of the pool in each state that it comes to when, and only
when, each of its calls meets the condition. -/
theorem chunks_keep_their_capacity (A : Allocator) (canary_sz n₁ n₂ n₃ n₄ n₅ : Nat)
    (mem : Nat → UInt8) (ops : List op) :
    lib.run.Always (step A) Lawful (start (memPool.init A canary_sz n₁ n₂ n₃ n₄ n₅) mem) ops ↔
      lib.run.Meets (step A) Fits (start (memPool.init A canary_sz n₁ n₂ n₃ n₄ n₅) mem) ops :=
  lib.run.always_iff_meets (fun _ h => inv_lawful h) (fun _ _ _ h hf hs => inv_step A h hf hs)
    (fun _ _ _ h hf hs => a_misfit_breaks_the_law A h hf hs)
    (inv_start A canary_sz n₁ n₂ n₃ n₄ n₅ mem) ops

/-- A buffer that assigns 33 bytes gets a chunk of 64 bytes and gives it back as a chunk of 33
bytes. -/
def poison : List op :=
  [.ctor 0 0, .assign 0 0 33, .dtor 0, .acquire 0 64]

theorem poison_answers :
    ((lib.run.exec (step bump) (start default_pool fun _ => 0) poison).map fun st =>
      st.w.handed.map fun h => (h.asked, h.chunk.capacity)) =
      some [(64, 33), (33, 64), (0, 0)] := by
  simp only [default_pool, memPool.init, counts, memPool.allocate,
    init_memory_eq bump _ _ _ (bucket_id.sz_pos _)]
  decide +kernel

/-- Without the condition, 64 bytes are asked for and a chunk of 33 bytes is handed out. -/
theorem assign_poisons_the_pool :
    ¬ ∀ (A : Allocator) (canary_sz n₁ n₂ n₃ n₄ n₅ : Nat) (mem : Nat → UInt8) (ops : List op),
      lib.run.Always (step A) Lawful (start (memPool.init A canary_sz n₁ n₂ n₃ n₄ n₅) mem) ops := by
  intro hall
  obtain ⟨st, hst, hh⟩ := Option.map_eq_some_iff.mp poison_answers
  have hlaw := lib.run.always_exec (hall bump 0 10000 5000 5000 1000 800 (fun _ => 0) poison) hst
  have hmem : ((64, 33) : Nat × Nat) ∈ st.w.handed.map fun h => (h.asked, h.chunk.capacity) := by
    rw [hh]
    simp
  obtain ⟨h, hin, heq⟩ := List.mem_map.mp hmem
  have hle := (hlaw.handed h hin).1
  simp only [Prod.mk.injEq] at heq
  omega

end socle.membuf
