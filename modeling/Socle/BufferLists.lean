-- The byte lists of the buffers. Beside the buffers run lists: each call does to
-- the lists what it should do to the bytes. A view says what it sees as long as
-- nobody spoils the memory that it sees.
import Socle.Lib.Bytes
import Socle.BufferBytes

namespace socle.membuf

open mempool lib.ledger lib.known lib.run

/-! ## The calls -/

/-- `buffer::view(size_type pos, size_type len)`, or `none` where it throws `std::out_of_range`.
The sum of the two wraps. -/
def buffer.view (b : buffer) (pos len : Nat) : Option buffer :=
  if pos < b.size_ then
    if (pos + len) % 2 ^ 64 ≤ b.size_ then ctor_own (b.data_ + pos) len len false
    else ctor_own (b.data_ + pos) (b.size_ - pos) (b.size_ - pos) false
  else none

/-- What a program can do: call the pool or a buffer, take a view of a buffer, take a block and
give it back, and write into memory that it holds by hand. -/
inductive call
  | buf (o : op)
  | view (i j pos len : Nat)
  | new_array (v n : Nat)
  | delete_array (v : Nat)
  | poke (v off : Nat) (bytes : List UInt8)

def World.poke (w : World) (p : Nat) (bytes : List UInt8) : World :=
  { w with mem := lib.bytes.put w.mem p bytes }

open State in
/-- One call. It is refused where `step` refuses it, and when it would write outside of the
memory that is held. -/
def call_step (A : Allocator) (st : State) : call → Option State
  | .buf o => step A st o
  | .view i j pos len => do
    st.fresh i
    let x ← st.bufs j
    let b ← x.view pos len
    return st.set i (b, st.w)
  | .new_array v n => do
    st.unheld v
    let (ptr, w) := st.w.new_array A n
    return { st with w }.hold v (some { ptr, capacity := n })
  | .delete_array v => do
    let c ← st.vars v
    return { st with w := st.w.delete_array c.ptr }.hold v none
  | .poke v off bytes => do
    let c ← st.vars v
    if off + bytes.length ≤ c.capacity then some { st with w := st.w.poke (c.ptr + off) bytes }
    else none

/-- A call that does what it should: the sum of a view does not wrap, and `delete[]` gets no chunk
of the pool. -/
def call.Apt (st : State) : call → Prop
  | .buf o => membuf.Apt st o
  | .view _ _ pos len => pos + len < 2 ^ 64
  | .delete_array v => ∀ c ∈ st.vars v, c.ptr ≠ 0 → ¬ st.w.pool.Mine c.ptr
  | _ => True

variable {κ : Type*} {mine : Nat → Prop} {R : κ → Multiset Nat} {use_pool : Bool} {st : State}

theorem view_some {x b : buffer} {pos len : Nat} (h : x.view pos len = some b)
    (hsum : pos + len < 2 ^ 64) : pos < x.size_ ∧
      b = { data_ := x.data_ + pos, size_ := min len (x.size_ - pos),
            capacity_ := min len (x.size_ - pos), free_ := false } := by
  unfold buffer.view at h
  rw [Nat.mod_eq_of_lt hsum] at h
  split_ifs at h with hpos hlen
  · refine ⟨hpos, ?_⟩
    rw [ctor_own_some h, min_eq_left (by omega)]
  · refine ⟨hpos, ?_⟩
    rw [ctor_own_some h, min_eq_right (by omega)]

section
variable [DecidableEq κ]

theorem sane_call (A : Allocator) {st st' : State} {o : call} (h : Sane mine use_pool R st)
    (ha : o.Apt st) (hs : call_step A st o = some st') : Sane mine use_pool R st' := by
  have hk := h.owned.kept
  cases o <;>
    simp only [call_step, Option.bind_eq_bind, Option.pure_def, Option.bind_eq_some_iff,
      Option.some.injEq, fresh_some, unheld_some, exists_const] at hs
  case buf o => exact sane_step A h ha hs
  case view i j pos len =>
    obtain ⟨hi, x, -, b, hb, rfl⟩ := hs
    obtain ⟨-, rfl⟩ := view_some hb ha
    apply sane_set h (b := nobody) (fun hf => by cases hf)
    · exact ⟨good_view rfl (Nat.le_refl _), fun _ _ _ hp => hp, h.modest, fun _ _ _ => rfl⟩
    · apply owned_set h.owned
      exact leaves_nothing hk (held_fresh hi) (own_of_not_free rfl) (tidy_of_not_free rfl)
  case new_array v n =>
    obtain ⟨hv, rfl⟩ := hs
    have hnot := hk.toLaid.from_heap_not_mine A n
    have hne : (st.w.new_array A n).1 ≠ 0 := A.place_ne_null _ _ _
    apply sane_hold (w := (st.w.new_array A n).2) (q := 0) h (absurd rfl)
      (fun p k _ hp => backed_alloc hp A n) h.modest
    · intro m hm
      cases hm
      exact ⟨fun _ => ⟨n, .heap List.mem_cons_self hnot, Nat.le_refl n⟩, fun h0 => absurd h0 hne⟩
    · apply owned_hold (w := (st.w.new_array A n).2) h.owned _ rfl
      · intro m hm
        cases hm
        intro _ hmine
        obtain ⟨id, hid⟩ := (hk.mine_iff _).mp hmine
        have hno := hnot id
        simp only [memPool.from_heap, World.new_array] at hno hid
        rw [hno] at hid
        cases hid
      · have hnone : Sum.elim st.held R (.inl (.var v)) = 0 := by simp [State.held, hv]
        have hone := ref_add hne 0
        rw [add_zero] at hone
        simp only [Option.elim_some]
        rw [hone]
        exact hk.grow A n hnone
  case delete_array v =>
    obtain ⟨c, hc, rfl⟩ := hs
    apply sane_hold (w := st.w.delete_array c.ptr) h (fun hd => held_of_var hc hd)
      (fun p k hne hp => backed_heap_dealloc hp hne) h.modest (fun m hm => by cases hm)
    apply owned_hold (w := st.w.delete_array c.ptr) h.owned _ rfl (fun m hm => by cases hm)
    apply hk.delete (held_var hc)
    intro hne hmine
    exact ha c hc hne ((hk.mine_iff _).mp hmine)
  case poke v off bytes =>
    obtain ⟨c, hc, hs⟩ := hs
    split at hs
    · cases hs
      have ho := h.owned
      exact ⟨⟨ho.kept, ho.switch, ho.tidy, ho.returns⟩, fun i b hb =>
        ⟨(h.buffers i b hb).room, (h.buffers i b hb).null, (h.buffers i b hb).fits⟩, h.room,
        h.null, h.modest⟩
    · cases hs

end

/-! ## The byte lists -/

def State.Readable (st : State) (a : Nat) : Prop :=
  ∃ k, st.Covers k a

/-- The `n` bytes from `p` on, as far as they belong to somebody. -/
noncomputable def State.read (st : State) (p n : Nat) : List (Option UInt8) :=
  lib.known.read st.w.mem st.Readable p n

/-- The buffers, what they should say, and whether it should be in memory of their own. -/
structure Told where
  code : State
  lists : Nat → List (Option UInt8)
  own : Nat → Bool

noncomputable def written (st : Told) : call → Nat → List (Option UInt8)
  | .buf (.ctor i _) | .buf (.clear i) | .buf (.detach i _) => Function.update st.lists i []
  | .buf (.ctor_cap i s _) => Function.update st.lists i (.replicate s none)
  | .buf (.ctor_bytes i d s) | .buf (.ctor_bytes_cap i d s _) | .buf (.ctor_view i d s _)
  | .buf (.assign_view i d s _) => Function.update st.lists i (st.code.read d s)
  | .buf (.ctor_own i v s _) | .buf (.assign_own i v s _) | .buf (.attach i v s) =>
    Function.update st.lists i (st.code.read ((st.code.vars v).elim 0 mem_chunk.ptr) s)
  | .buf (.copy_ctor i j) | .buf (.copy_assign i j) | .buf (.move_ctor i j)
  | .buf (.move_assign i j) => Function.update st.lists i (st.lists j)
  | .buf (.swap i j) =>
    Function.update (Function.update st.lists i (st.lists j)) j (st.lists i)
  | .buf (.assign i d s) =>
    Function.update st.lists i (if d = 0 then .replicate s none else st.code.read d s)
  | .buf (.size i s) => Function.update st.lists i (resize (st.lists i) s)
  | .buf (.flush i n) => Function.update st.lists i
    (if n = 0 ∨ n ≥ (st.lists i).length then [] else (st.lists i).drop n)
  | .buf (.append i d s) => Function.update st.lists i (st.lists i ++ st.code.read d s)
  | .buf (.append_buffer i j) => Function.update st.lists i (st.lists i ++ st.lists j)
  | .view i j pos len => Function.update st.lists i (((st.lists j).drop pos).take len)
  | _ => st.lists

/-- `append` of `n` bytes writes to `a`, which is behind the bytes of the buffer. A buffer that
gets new memory for them leaves its old memory alone. -/
def buffer.Appended (b : buffer) (n a : Nat) : Prop :=
  b.size_ + n ≤ b.capacity_ ∧ b.data_ + b.size_ ≤ a ∧ a < b.data_ + b.size_ + n

/-- The buffer through which the call may write without owning the memory. -/
def call.target : call → Option Nat
  | .buf (.flush i _) | .buf (.append i _ _) | .buf (.append_buffer i _) => some i
  | _ => none

/-- The call writes to `a`: into the memory of a buffer, through a view, or into memory that is
held by hand. -/
def call.Spoils (st : State) (a : Nat) : call → Prop
  | .buf (.copy_assign i j) =>
    ∃ b ∈ st.bufs i, ∃ x ∈ st.bufs j, b.Covers a ∧ a < b.data_ + x.size_
  | .buf (.assign i _ s) => ∃ b ∈ st.bufs i, b.Covers a ∧ a < b.data_ + s
  | .buf (.flush i n) =>
    ∃ b ∈ st.bufs i, n ≠ 0 ∧ b.data_ ≤ a ∧ a < b.data_ + (b.size_ - n)
  | .buf (.append i _ s) => ∃ b ∈ st.bufs i, b.Appended s a
  | .buf (.append_buffer i j) => ∃ b ∈ st.bufs i, ∃ x ∈ st.bufs j, b.Appended x.size_ a
  | .poke v off bytes =>
    ∃ c ∈ st.vars v, c.ptr + off ≤ a ∧ a < c.ptr + off + bytes.length
  | _ => False

/-- The byte lists after a call. A buffer that owns its memory says what the call makes it say. A
view says it as far as the memory still belongs to somebody and no call of another buffer wrote
into it. -/
noncomputable def tells (st : Told) (after : State) (o : call) (k : Nat) : List (Option UInt8) :=
  match after.bufs k with
  | none => []
  | some b =>
    if b.free_ then written st o k
    else keep (fun a => after.Readable a ∧ (o.target = some k ∨ ¬ o.Spoils st.code a)) b.data_
      (written st o k)

/-- Which buffers should have memory of their own after a call. A copy has it unless it is the copy
of a view, and an assignment of nothing gives none. -/
def owns (st : Told) : call → Nat → Bool
  | .buf (.ctor i _) | .buf (.ctor_cap i _ _) | .buf (.ctor_bytes i _ _)
  | .buf (.ctor_bytes_cap i _ _ _) | .buf (.ctor_own i _ _ _) | .buf (.assign_own i _ _ _)
  | .buf (.attach i _ _) | .buf (.detach i _) => Function.update st.own i true
  | .buf (.ctor_view i _ _ _) | .buf (.assign_view i _ _ _) | .view i _ _ _ =>
    Function.update st.own i false
  | .buf (.copy_ctor i j) => Function.update st.own i (st.own j)
  | .buf (.copy_assign i j) => Function.update st.own i
    (st.own j && ((st.lists j).length ≠ 0 || st.own i))
  | .buf (.move_ctor i j) | .buf (.move_assign i j) =>
    Function.update (Function.update st.own j false) i (st.own j)
  | .buf (.swap i j) => Function.update (Function.update st.own i (st.own j)) j (st.own i)
  | .buf (.assign i d s) => Function.update st.own i ((d ≠ 0 && s ≠ 0) || st.own i)
  | _ => st.own

noncomputable def told_step (A : Allocator) (st : Told) (o : call) : Option Told :=
  (call_step A st.code o).map fun after => ⟨after, tells st after o, owns st o⟩

/-- The lists say what the buffers hold. What they know belongs to somebody. -/
structure Told.Shown (st : Told) : Prop where
  length : ∀ i b, st.code.bufs i = some b → (st.lists i).length = b.size_
  bytes : ∀ i b, st.code.bufs i = some b → At st.code.w.mem b.data_ (st.lists i)
  belongs : ∀ i b, st.code.bufs i = some b → ∀ k x, (st.lists i)[k]? = some (some x) →
    st.code.Readable (b.data_ + k)

/-! ## A call and the lists -/

/-- After the call each buffer has what the list says, or the call left it alone. Where nobody
wrote, the memory is as it was. -/
structure Tells (st : Told) (after : State) (o : call) : Prop where
  buffer : ∀ k b, after.bufs k = some b →
    ((written st o k).length = b.size_ ∧ At after.w.mem b.data_ (written st o k)) ∨
    (st.code.bufs k = some b ∧ written st o k = st.lists k ∧ o.target ≠ some k ∧
      ∀ a, b.Covers a → ¬ o.Spoils st.code a)
  frame : ∀ a, st.code.Readable a → after.Readable a → ¬ o.Spoils st.code a →
    after.w.mem a = st.code.w.mem a

section
variable {st : Told} {after : State} {o : call}

theorem readable_of_covers {st : State} {k : Nat} {b : buffer} (hb : st.bufs k = some b) {a : Nat}
    (ha : b.Covers a) : st.Readable a :=
  ⟨.buf k, b, hb, ha⟩

theorem covers_of_known {b : buffer} (hf : b.free_ = true) (hfits : b.size_ ≤ b.capacity_)
    {l : List (Option UInt8)} (hl : l.length = b.size_) {k : Nat} {x : UInt8}
    (hk : l[k]? = some (some x)) : b.Covers (b.data_ + k) := by
  have hlt := known_lt hk
  exact ⟨hf, Nat.le_add_right _ _, by omega⟩

theorem shown_after (hs : st.Shown) (hsane : Sane mine use_pool R after) (ht : Tells st after o) :
    Told.Shown ⟨after, tells st after o, owns st o⟩ := by
  have hview : ∀ {k : Nat} {b : buffer}, after.bufs k = some b → tells st after o k =
      if b.free_ then written st o k
      else keep (fun a => after.Readable a ∧ (o.target = some k ∨ ¬ o.Spoils st.code a)) b.data_
        (written st o k) := by
    intro k b hb
    simp only [tells, hb]
  have hlen : ∀ {k : Nat} {b : buffer}, after.bufs k = some b →
      (written st o k).length = b.size_ := by
    intro k b hb
    rcases ht.buffer k b hb with h | ⟨hold, heq, -⟩
    · exact h.1
    · rw [heq]
      exact hs.length k b hold
  have hbelongs : ∀ {k : Nat} {b : buffer}, after.bufs k = some b → ∀ t x,
      (tells st after o k)[t]? = some (some x) →
      (written st o k)[t]? = some (some x) ∧ after.Readable (b.data_ + t) ∧
        (b.free_ = false → o.target = some k ∨ ¬ o.Spoils st.code (b.data_ + t)) := by
    intro k b hb t x ht'
    rw [hview hb] at ht'
    cases hf : b.free_ with
    | true =>
      rw [hf, if_pos rfl] at ht'
      have hc := covers_of_known hf (hsane.buffers k b hb).fits (hlen hb) ht'
      exact ⟨ht', readable_of_covers hb hc, fun h => by cases h⟩
    | false =>
      rw [hf, if_neg Bool.false_ne_true] at ht'
      obtain ⟨⟨hr, hsp⟩, hw⟩ := keep_known ht'
      exact ⟨hw, hr, fun _ => hsp⟩
  refine ⟨?_, ?_, fun k b hb t x h => (hbelongs hb t x h).2.1⟩
  · intro k b hb
    simp only [hview hb]
    split
    · exact hlen hb
    · rw [keep_length]
      exact hlen hb
  · intro k b hb t x htx
    obtain ⟨hw, hr, hsp⟩ := hbelongs hb t x htx
    rcases ht.buffer k b hb with h | ⟨hold, heq, htarget, hclean⟩
    · exact h.2 t x hw
    · rw [heq] at hw
      rw [← hs.bytes k b hold t x hw]
      apply ht.frame _ (hs.belongs k b hold t x hw) hr
      cases hf : b.free_ with
      | true =>
        exact hclean _ (covers_of_known hf (hsane.buffers k b hb).fits (hs.length k b hold) hw)
      | false => exact (hsp hf).resolve_left htarget

theorem tells_quiet (hmem : after.w.mem = st.code.w.mem)
    (hk : ∀ k b, after.bufs k = some b →
      (written st o k).length = b.size_ ∧ At st.code.w.mem b.data_ (written st o k)) :
    Tells st after o := by
  refine ⟨fun k b hb => Or.inl ?_, fun a _ _ _ => by rw [hmem]⟩
  rw [hmem]
  exact hk k b hb

/-- A call that writes nothing and leaves the buffers alone, or ends one. -/
theorem tells_nothing (hs : st.Shown) (hmem : after.w.mem = st.code.w.mem)
    (hl : written st o = st.lists)
    (hk : ∀ k b, after.bufs k = some b → st.code.bufs k = some b) : Tells st after o := by
  apply tells_quiet hmem
  intro k b hb
  rw [hl]
  exact ⟨hs.length k b (hk k b hb), hs.bytes k b (hk k b hb)⟩

theorem tells_one (hs : st.Shown) (hmem : after.w.mem = st.code.w.mem) {i : Nat} {b : buffer}
    {l : List (Option UInt8)} (hbufs : after.bufs = Function.update st.code.bufs i (some b))
    (hl : written st o = Function.update st.lists i l) (hlen : l.length = b.size_)
    (hat : At st.code.w.mem b.data_ l) : Tells st after o := by
  apply tells_quiet hmem
  intro k x hx
  rw [hbufs] at hx
  rw [hl]
  rcases update_eq_some.mp hx with ⟨rfl, hgot⟩ | ⟨hki, hx⟩
  · cases hgot
    rw [Function.update_self]
    exact ⟨hlen, hat⟩
  · rw [Function.update_of_ne hki]
    exact ⟨hs.length k x hx, hs.bytes k x hx⟩

/-- A call that writes nothing, after which buffer `i` is what buffer `j` was. -/
theorem tells_move (hs : st.Shown) {i j : Nat} {x : buffer} {w : World}
    (hx : st.code.bufs j = some x)
    (hafter : after = (st.code.set j ({ x with free_ := false }, w)).set i (x, w))
    (hl : written st o = Function.update st.lists i (st.lists j))
    (hmem : w.mem = st.code.w.mem) : Tells st after o := by
  subst hafter
  apply tells_quiet hmem
  intro k y hy
  simp only [State.set] at hy
  rw [hl]
  rcases update_eq_some.mp hy with ⟨rfl, hgot⟩ | ⟨hki, hy⟩
  · cases hgot
    rw [Function.update_self]
    exact ⟨hs.length j x hx, hs.bytes j x hx⟩
  rw [Function.update_of_ne hki]
  rcases update_eq_some.mp hy with ⟨rfl, hgot⟩ | ⟨-, hy⟩
  · cases hgot
    exact ⟨hs.length k x hx, hs.bytes k x hx⟩
  · exact ⟨hs.length k y hy, hs.bytes k y hy⟩

/-- Who has a byte and is not buffer `i` has it after the call too. -/
theorem covers_set {st : State} {i : Nat} {r : buffer × World} {k : holder} {a : Nat}
    (hk : k ≠ .buf i) : (st.set i r).Covers k a ↔ st.Covers k a := by
  cases k with
  | buf j =>
    have hj : j ≠ i := by simpa using hk
    simp only [State.Covers, State.set, Function.update_of_ne hj]
  | var v => rfl

/-- A byte of somebody else is not in the memory that buffer `i` has after the call. -/
theorem not_taken {st : State} {i : Nat} {r : buffer × World}
    (h' : Sane mine use_pool R (st.set i r)) {a : Nat} (hr : st.Readable a)
    (hn : ¬ st.Covers (.buf i) a) : ¬ r.1.Covers a := by
  intro hc
  obtain ⟨k, hk⟩ := hr
  have hne : k ≠ .buf i := by
    rintro rfl
    exact hn hk
  have hi : (st.set i r).Covers (.buf i) a := ⟨r.1, by simp [State.set], hc⟩
  exact hne (h'.apart ((covers_set hne).mpr hk) hi)

/-- A byte that buffer `i` had and has not any more belongs to nobody. -/
theorem not_readable {st : State} {i : Nat} {r : buffer × World} (h : Sane mine use_pool R st)
    {b : buffer} (hb : st.bufs i = some b) {a : Nat} (ha : b.Covers a) (hn : ¬ r.1.Covers a) :
    ¬ (st.set i r).Readable a := by
  rintro ⟨k, hk⟩
  by_cases hne : k = .buf i
  · subst hne
    obtain ⟨b', hb', hc⟩ := hk
    simp only [State.set, Function.update_self, Option.mem_def, Option.some.injEq] at hb'
    subst hb'
    exact hn hc
  · exact hne (h.apart ((covers_set hne).mp hk) ⟨b, hb, ha⟩)

/-- A call that changes one buffer and writes only what it may. -/
theorem tells_put {i : Nat} {r : buffer × World} {l : List (Option UInt8)}
    (hl : written st o = Function.update st.lists i l) (hshows : Shows r l)
    (htarget : o.target = none ∨ o.target = some i)
    (hother : ∀ k x, k ≠ i → st.code.bufs k = some x → ∀ a, x.Covers a → ¬ o.Spoils st.code a)
    (hframe : ∀ a, st.code.Readable a → (st.code.set i r).Readable a → ¬ o.Spoils st.code a →
      r.2.mem a = st.code.w.mem a) : Tells st (st.code.set i r) o where
  buffer := by
    intro k x hx
    simp only [State.set] at hx ⊢
    rw [hl]
    rcases update_eq_some.mp hx with ⟨rfl, hgot⟩ | ⟨hki, hx⟩
    · cases hgot
      rw [Function.update_self]
      exact Or.inl hshows
    · rw [Function.update_of_ne hki]
      refine Or.inr ⟨hx, rfl, ?_, hother k x hki hx⟩
      rcases htarget with h | h
      · simp [h]
      · simpa [h] using Ne.symm hki
  frame := hframe

theorem tells_set (h : Sane mine use_pool R st.code) {i : Nat} {r : buffer × World}
    (h' : Sane mine use_pool R (st.code.set i r)) {b : buffer}
    (hb : st.code.bufs i = some b ∨ (st.code.bufs i = none ∧ b = nobody))
    (hw : Works b st.code.w r) {l : List (Option UInt8)}
    (hl : written st o = Function.update st.lists i l) (hshows : Shows r l)
    (htarget : o.target = none ∨ o.target = some i)
    (hspoils : ∀ a, o.Spoils st.code a → st.code.Covers (.buf i) a)
    (hkeep : ∀ a, b.Covers a → (st.code.set i r).Readable a → ¬ o.Spoils st.code a →
      r.2.mem a = st.code.w.mem a) : Tells st (st.code.set i r) o := by
  apply tells_put hl hshows htarget
  · intro k x hki hx a ha hsp
    have hcov : st.code.Covers (.buf k) a := ⟨x, hx, ha⟩
    apply hki
    simpa using h.apart hcov (hspoils a hsp)
  · intro a hr hr' hsp
    by_cases hba : b.Covers a
    · exact hkeep a hba hr' hsp
    · apply hw.frame a hba
      apply not_taken h' hr
      rintro ⟨b', hb', hc⟩
      rcases hb with hb | ⟨hb, -⟩
      · rw [hb] at hb'
        cases hb'
        exact hba hc
      · rw [hb] at hb'
        cases hb'

theorem tells_new (h : Sane mine use_pool R st.code) {i : Nat} {r : buffer × World}
    (h' : Sane mine use_pool R (st.code.set i r)) (hi : st.code.bufs i = none)
    (hw : Works nobody st.code.w r) {l : List (Option UInt8)}
    (hl : written st o = Function.update st.lists i l) (hshows : Shows r l)
    (htarget : o.target = none) (hspoils : ∀ a, ¬ o.Spoils st.code a) :
    Tells st (st.code.set i r) o :=
  tells_set h h' (Or.inr ⟨hi, rfl⟩) hw hl hshows (Or.inl htarget)
    (fun a hsp => absurd hsp (hspoils a)) (fun a hcov => absurd hcov (nobody_covers a))

/-- A call that writes through a buffer which does not own the memory. -/
theorem tells_through {i dst src n : Nat} {b : buffer} {l : List (Option UInt8)}
    (hl : written st o = Function.update st.lists i l)
    (hshows : Shows (b, st.code.w.memcpy dst src n) l) (htarget : o.target = some i)
    (hfree : Unowned st.code dst n)
    (hsp : ∀ a, o.Spoils st.code a ↔ dst ≤ a ∧ a < dst + n) :
    Tells st (st.code.set i (b, st.code.w.memcpy dst src n)) o := by
  apply tells_put hl hshows (Or.inr htarget)
  · intro k x _ hx a ha hspo
    obtain ⟨hlo, hhi⟩ := (hsp a).mp hspo
    exact hfree k x hx a hlo hhi ha
  · intro a _ _ hspo
    rw [hsp a] at hspo
    exact copy_apart (by omega)

theorem gone [DecidableEq κ] (A : Allocator) {st : State} (h : Sane mine use_pool R st) {i n : Nat}
    {b : buffer} (hb : st.bufs i = some b) (hc : b.capacity_ < n) {r : buffer × World}
    (hr : ∀ a, r.1.Covers a → (b.capacity A n st.w).2.1.Covers a) {a : Nat} (ha : b.Covers a) :
    ¬ (st.set i r).Readable a := by
  apply not_readable h hb ha
  intro hra
  exact capacity_leaves_old A h.owned.kept (held_buf hb) h.modest (h.buffers i b hb) hc ha
    (hr a hra)

theorem source_stays {A : Allocator} {st : State} {i d n : Nat} {b : buffer}
    (h' : Sane mine use_pool R (st.set i (b.append A d n st.w))) (hb : st.bufs i = some b)
    (ha : Appends st b d n) {l : List (Option UInt8)} (hl : l.length = n)
    (hr : ∀ k x, l[k]? = some (some x) → st.Readable (d + k)) :
    b.capacity_ < b.size_ + n → ∀ k x, l[k]? = some (some x) →
      ¬ ((b.capacity A (b.size_ + n) st.w).2.1.data_ ≤ d + k ∧
        d + k < (b.capacity A (b.size_ + n) st.w).2.1.data_ + b.size_) := by
  rintro hc k x hk ⟨hlo, hhi⟩
  have hlt := known_lt hk
  have hn : n ≠ 0 := by omega
  have haway := ha.resolve_left hn
  rw [if_pos hc] at haway
  have hout : ¬ st.Covers (.buf i) (d + k) := by
    rintro ⟨b', hb', hf, hlo', hhi'⟩
    rw [hb] at hb'
    cases hb'
    have hd := haway.2 hf
    unfold Away at hd
    omega
  have hfits := (h'.buffers i (b.append A d n st.w).1 (by simp [State.set])).fits
  apply not_taken h' (hr k x hk) hout
  rw [append_grow A st.w d hc hn, capacity_eq A st.w b hc] at hfits ⊢
  rw [capacity_eq A st.w b hc] at hlo hhi
  refine ⟨rfl, hlo, ?_⟩
  simp only [buffer.inside] at hfits hhi ⊢
  omega

theorem tells_append [DecidableEq κ] (A : Allocator) (hs : st.Shown)
    (h : Sane mine use_pool R st.code) {i d n : Nat} {b : buffer}
    (h' : Sane mine use_pool R (st.code.set i (b.append A d n st.code.w)))
    (hb : st.code.bufs i = some b) (ha : Appends st.code b d n) {l : List (Option UInt8)}
    (hl : l.length = n) (hat : At st.code.w.mem d l)
    (hr : ∀ k x, l[k]? = some (some x) → st.code.Readable (d + k))
    (hw : written st o = Function.update st.lists i (st.lists i ++ l))
    (htarget : o.target = some i) (hsp : ∀ a, o.Spoils st.code a ↔ b.Appended n a) :
    Tells st (st.code.set i (b.append A d n st.code.w)) o := by
  have hg := h.buffers i b hb
  have hsize := hg.fits
  have hshows := append_shows A (hs.bytes i b hb) (hs.length i b hb) hat hl
    (source_stays h' hb ha hl hr)
  by_cases hin : b.free_ = true ∨ b.capacity_ < b.size_ + n ∨ n = 0
  · -- the memory that is written is the buffer's own, before the call or after it
    apply tells_set h h' (Or.inl hb) _ hw hshows (Or.inr htarget)
    · intro a hspo
      obtain ⟨hcap, hlo, hhi⟩ := (hsp a).mp hspo
      have hf : b.free_ = true := by
        rcases hin with hf | hc | hn
        · exact hf
        · omega
        · omega
      exact ⟨b, hb, hf, by omega, by omega⟩
    · intro a hcov hread hnot
      rw [hsp a] at hnot
      by_cases hn : n = 0
      · subst hn
        simp [buffer.append]
      by_cases hc : b.capacity_ < b.size_ + n
      · apply absurd hread
        apply gone A h hb hc _ hcov
        intro a ha
        rw [append_grow A st.code.w d hc hn] at ha
        exact ha
      · rw [append_stay A st.code.w d hc]
        unfold buffer.Appended at hnot
        exact copy_apart (by omega)
    · apply append_works A h.owned.kept (held_buf hb) h.modest hg d
      by_cases hn : n = 0
      · rw [if_neg (by omega)]
        exact Or.inl hn
      have hmem := ha.resolve_left hn
      split
      · rename_i hc
        rw [if_pos hc] at hmem
        exact hmem.1
      · rename_i hc
        right
        rcases hin with hf | hc' | hn'
        · exact hf
        · exact absurd hc' hc
        · exact absurd hn' hn
  · rw [not_or, not_or] at hin
    obtain ⟨hf, hc, hn⟩ := hin
    have hmem := ha.resolve_left hn
    rw [if_neg hc] at hmem
    rw [append_stay A st.code.w d hc] at hshows ⊢
    apply tells_through hw hshows htarget (hmem.1.resolve_left hf)
    intro a
    rw [hsp a]
    unfold buffer.Appended
    omega

theorem tells_flush (hs : st.Shown) (h : Sane mine use_pool R st.code) {i n : Nat} {b : buffer}
    (h' : Sane mine use_pool R (st.code.set i (b.flush n st.code.w)))
    (hb : st.code.bufs i = some b)
    (ha : n ≠ 0 → n < b.size_ → MayWrite st.code b b.data_ (b.size_ - n)) :
    Tells st (st.code.set i (b.flush n st.code.w)) (.buf (.flush i n)) := by
  have hg := h.buffers i b hb
  have hsize := hg.fits
  have hshows := flush_shows (n := n) (hs.bytes i b hb) (hs.length i b hb)
  have hsp : ∀ a, call.Spoils st.code a (.buf (.flush i n)) ↔
      n ≠ 0 ∧ b.data_ ≤ a ∧ a < b.data_ + (b.size_ - n) := by
    intro a
    simp [call.Spoils, hb]
  by_cases hin : b.free_ = true ∨ n = 0 ∨ n ≥ b.size_
  · apply tells_set h h' (Or.inl hb) _ rfl hshows (Or.inr rfl)
    · intro a hspo
      obtain ⟨hn, hlo, hhi⟩ := (hsp a).mp hspo
      have hf : b.free_ = true := by
        rcases hin with hf | hn' | hn'
        · exact hf
        · omega
        · omega
      exact ⟨b, hb, hf, hlo, by omega⟩
    · intro a hcov _ hnot
      rw [hsp a] at hnot
      apply flush_keeps hcov
      rintro ⟨hn, hhi⟩
      exact hnot ⟨hn, hcov.2.1, hhi⟩
    · apply flush_works h.modest hg
      intro hn hlt
      rcases hin with hf | hn' | hn'
      · exact hf
      · exact absurd hn' hn
      · omega
  · rw [not_or, not_or, Nat.not_le] at hin
    obtain ⟨hf, hn, hlt⟩ := hin
    unfold buffer.flush at hshows ⊢
    rw [if_neg (by omega)] at hshows ⊢
    apply tells_through rfl hshows rfl ((ha hn hlt).resolve_left hf)
    intro a
    rw [hsp a]
    omega

theorem tells_op [DecidableEq κ] (A : Allocator) {o : op} (hs : st.Shown)
    (h : Sane mine use_pool R st.code) (ha : Apt st.code o)
    (hc : step A st.code o = some after) : Tells st after (.buf o) := by
  have h' := sane_step A h ha hc
  have hk := h.owned.kept
  cases o <;>
    simp only [step, Option.bind_eq_bind, Option.pure_def, Option.bind_eq_some_iff,
      Option.some.injEq, fresh_some, unheld_some, exists_const] at hc
  case acquire v n =>
    obtain ⟨hv, rfl⟩ := hc
    exact tells_nothing hs rfl rfl fun _ _ hb => hb
  case release v =>
    obtain ⟨c, hv, rfl⟩ := hc
    exact tells_nothing hs rfl rfl fun _ _ hb => hb
  case ctor i n =>
    obtain ⟨hi, rfl⟩ := hc
    apply tells_one hs _ rfl rfl
    · simp [ctor_eq, buffer.inside]
    · exact at_nil
    · simp [State.set, ctor_eq]
  case ctor_cap i n c =>
    obtain ⟨hi, r, hr, rfl⟩ := hc
    rw [ctor_cap_eq A _ (ctor_cap_le A hr), Option.some.injEq] at hr
    subst hr
    apply tells_one hs _ rfl rfl
    · simp [buffer.inside]
    · exact at_unknown
    · simp [State.set]
  case ctor_bytes i d n =>
    obtain ⟨hi, rfl⟩ := hc
    exact tells_new h h' hi (ctor_bytes_works A hk h.modest d ha) rfl
      (ctor_bytes_shows A at_read read_length) rfl fun a => id
  case ctor_bytes_cap i d n c =>
    obtain ⟨hi, r, hr, rfl⟩ := hc
    exact tells_new h h' hi (ctor_bytes_cap_works A hk h.modest ha hr) rfl
      (ctor_bytes_cap_shows A at_read read_length hr) rfl fun a => id
  case ctor_view i d n c =>
    obtain ⟨hi, b, hb, rfl⟩ := hc
    rw [ctor_own_some hb]
    exact tells_one hs rfl rfl rfl read_length at_read
  case ctor_own i v n c =>
    obtain ⟨hi, m, hm, b, hb, rfl⟩ := hc
    rw [ctor_own_some hb]
    refine tells_one hs rfl rfl rfl read_length ?_
    rw [hm]
    exact at_read
  case copy_ctor i j =>
    obtain ⟨hi, x, hx, rfl⟩ := hc
    have hg := h.buffers j x hx
    exact tells_new h h' hi (copy_ctor_works A hk h.modest hg (ha x hx)) rfl
      (copy_ctor_shows A hg.fits (hs.bytes j x hx) (hs.length j x hx)) rfl fun a => id
  case move_ctor i j =>
    obtain ⟨hi, x, hx, rfl⟩ := hc
    exact tells_move hs hx rfl rfl rfl
  case dtor i =>
    obtain ⟨b, hb, rfl⟩ := hc
    apply tells_nothing hs _ rfl
    · intro k x hx
      by_cases hki : k = i
      · subst hki
        simp at hx
      · simpa [hki] using hx
    · simp [buffer.release]
  case copy_assign i j =>
    obtain ⟨b, hb, x, hx, rfl⟩ := hc
    by_cases hij : i = j
    · subst hij
      rw [if_pos rfl]
      apply tells_nothing hs rfl
      · simp [written]
      · exact fun _ _ hb => hb
    · rw [if_neg hij] at h' ⊢
      have hg := h.buffers i b hb
      have hin := ha hij b hb x hx
      have hshows := copy_assign_shows A hin (hs.bytes j x hx) (hs.length j x hx)
      apply tells_set h h' (Or.inl hb) _ rfl hshows (Or.inl rfl)
      · rintro a ⟨b', hb', x', -, hcov, -⟩
        exact ⟨b', hb', hcov⟩
      · intro a hcov _ hsp
        apply copy_assign_keeps A hg hcov
        exact fun hlt => hsp ⟨b, hb, x, hx, hcov, hlt⟩
      · exact copy_assign_works A hk (held_buf hb) (h.owned.tidy i b hb) h.modest hg
          (h.buffers j x hx) hin
  case move_assign i j =>
    obtain ⟨b, hb, x, hx, hc⟩ := hc
    split at hc
    · rename_i hij
      subst hij
      cases hc
      refine tells_one hs ?_ rfl rfl (hs.length i b hb) (hs.bytes i b hb)
      simp [State.set, buffer.move_assign_self]
    · rename_i hij
      cases hc
      exact tells_move hs hx rfl rfl (drop_own_mem b st.code.w)
  case swap i j =>
    obtain ⟨b, hb, x, hx, rfl⟩ := hc
    refine tells_quiet rfl ?_
    intro k y hy
    simp only [State.set, written] at hy ⊢
    rcases update_eq_some.mp hy with ⟨rfl, hgot⟩ | ⟨hkj, hy⟩
    · cases hgot
      rw [Function.update_self]
      exact ⟨hs.length i b hb, hs.bytes i b hb⟩
    rw [Function.update_of_ne hkj]
    rcases update_eq_some.mp hy with ⟨rfl, hgot⟩ | ⟨hki, hy⟩
    · cases hgot
      rw [Function.update_self]
      exact ⟨hs.length j x hx, hs.bytes j x hx⟩
    · rw [Function.update_of_ne hki]
      exact ⟨hs.length k y hy, hs.bytes k y hy⟩
  case detach i v =>
    obtain ⟨b, hb, hv, rfl⟩ := hc
    exact tells_one hs rfl rfl rfl rfl at_nil
  case assign i d n =>
    obtain ⟨b, hb, rfl⟩ := hc
    have hg := h.buffers i b hb
    have hlen : (if d = 0 then .replicate n none else st.code.read d n).length = n := by
      split
      · simp
      · exact read_length
    have hsource : if d = 0 then
        (if d = 0 then .replicate n none else st.code.read d n) = .replicate n none
        else At st.code.w.mem d (if d = 0 then .replicate n none else st.code.read d n) := by
      split
      · rfl
      · exact at_read
    have hshows := assign_shows A (b := b) hlen hsource
    apply tells_set h h' (Or.inl hb) _ rfl hshows (Or.inl rfl)
    · rintro a ⟨b', hb', hcov, -⟩
      exact ⟨b', hb', hcov⟩
    · intro a hcov _ hsp
      apply assign_keeps A hcov
      exact fun hlt => hsp ⟨b, hb, hcov, hlt⟩
    · exact assign_works A hk (held_buf hb) (h.owned.tidy i b hb) h.modest hg
        (assigns_own (ha b hb))
  case assign_view i d n c =>
    obtain ⟨b, hb, rfl⟩ := hc
    apply tells_one hs _ rfl rfl
    · exact read_length
    · exact at_read
    · simp [State.set, buffer.assign_own]
  case assign_own i v n c =>
    obtain ⟨b, hb, m, hm, rfl⟩ := hc
    apply tells_one hs _ rfl rfl
    · exact read_length
    · rw [hm]
      exact at_read
    · simp [State.set, State.hold, buffer.assign_own]
  case attach i v n =>
    obtain ⟨b, hb, m, hm, rfl⟩ := hc
    apply tells_one hs _ rfl rfl
    · exact read_length
    · rw [hm]
      exact at_read
    · simp [State.set, State.hold, buffer.attach, buffer.assign_own]
  case capacity i c =>
    obtain ⟨b, hb, rfl⟩ := hc
    have hshows := capacity_shows A (n := c) (hs.bytes i b hb) (hs.length i b hb)
    apply tells_set (o := .buf (.capacity i c)) h h' (Or.inl hb) _ _ hshows (Or.inl rfl)
      (fun a hsp => False.elim hsp)
    · intro a hcov hread _
      by_cases hcap : b.capacity_ < c
      · exact absurd hread (gone A h hb hcap (fun _ ha => ha) hcov)
      · rw [capacity_stay A hcap]
    · exact capacity_works A hk (held_buf hb) h.modest (h.buffers i b hb) (ha b hb)
    · exact (Function.update_eq_self i st.lists).symm
  case size i n =>
    obtain ⟨b, hb, rfl⟩ := hc
    have hshows := size_shows A (n := n) (hs.bytes i b hb) (hs.length i b hb)
    apply tells_set (o := .buf (.size i n)) h h' (Or.inl hb) _ rfl hshows (Or.inl rfl)
      (fun a hsp => False.elim hsp)
    · intro a hcov hread _
      by_cases hcap : b.capacity_ < n
      · apply absurd hread
        apply gone A h hb hcap _ hcov
        intro a ha
        simp only [buffer.size, if_pos hcap] at ha
        exact ha
      · simp only [buffer.size, if_neg hcap]
    · exact size_works A hk (held_buf hb) h.modest (h.buffers i b hb) (ha b hb)
  case clear i =>
    obtain ⟨b, hb, rfl⟩ := hc
    exact tells_one hs rfl rfl rfl rfl at_nil
  case flush i n =>
    obtain ⟨b, hb, rfl⟩ := hc
    exact tells_flush hs h h' hb (ha b hb)
  case append i d n =>
    obtain ⟨b, hb, rfl⟩ := hc
    exact tells_append A hs h h' hb (ha b hb) read_length at_read
      (fun k x hk => (read_known hk).1) rfl rfl fun a => by simp [call.Spoils, hb]
  case append_buffer i j =>
    obtain ⟨b, hb, x, hx, rfl⟩ := hc
    exact tells_append A hs h h' hb (ha b hb x hx) (hs.length j x hx) (hs.bytes j x hx)
      (hs.belongs j x hx) rfl rfl fun a => by simp [call.Spoils, hb, hx]

theorem tells_call [DecidableEq κ] (A : Allocator) (hs : st.Shown)
    (h : Sane mine use_pool R st.code) (ha : o.Apt st.code)
    (hc : call_step A st.code o = some after) : Tells st after o := by
  cases o <;>
    simp only [call_step, Option.bind_eq_bind, Option.pure_def, Option.bind_eq_some_iff,
      Option.some.injEq, fresh_some, unheld_some, exists_const] at hc
  case buf o => exact tells_op A hs h ha hc
  case view i j pos len =>
    obtain ⟨hi, x, hx, b, hb, rfl⟩ := hc
    obtain ⟨hpos, rfl⟩ := view_some hb ha
    refine tells_one hs rfl rfl rfl ?_ ?_
    · simp [hs.length j x hx]
    · exact at_take (at_drop (hs.bytes j x hx) pos) len
  case new_array v n =>
    obtain ⟨hv, rfl⟩ := hc
    exact tells_nothing hs rfl rfl fun _ _ hb => hb
  case delete_array v =>
    obtain ⟨c, hv, rfl⟩ := hc
    exact tells_nothing hs rfl rfl fun _ _ hb => hb
  case poke v off bytes =>
    obtain ⟨c, hv, hc⟩ := hc
    split at hc
    · rename_i hroom
      cases hc
      refine ⟨fun k b hb => Or.inr ⟨hb, rfl, by simp [call.target], ?_⟩, ?_⟩
      · rintro a hcov ⟨c', hc', hlo, hhi⟩
        rw [hv] at hc'
        cases hc'
        have hbuf : st.code.Covers (.buf k) a := ⟨b, hb, hcov⟩
        have hvar : st.code.Covers (.var v) a := ⟨c, hv, by omega, by omega⟩
        have heq := h.apart hbuf hvar
        cases heq
      · intro a _ _ hsp
        simp only [World.poke, lib.bytes.put]
        rw [if_neg]
        exact fun hin => hsp ⟨c, hv, hin⟩
    · cases hc

end

end socle.membuf
