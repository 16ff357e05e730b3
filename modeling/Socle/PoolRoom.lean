-- How much memory stands behind a piece. Two pieces never share a byte, a piece
-- keeps its room while it has an owner, and a chunk that comes back says no more
-- than it has.
import Socle.PoolOwners

namespace socle.mempool

open lib.ledger

/-- There are `n` bytes behind `p`, or more. -/
def Room (w : memPool) (p n : Nat) : Prop :=
  ∃ m, Backed w p m ∧ n ≤ m

/-- No free chunk says that it is larger than it is. -/
def Modest (w : memPool) : Prop :=
  ∀ id, ∀ c ∈ (w.bucket id).bucket, c.capacity ≤ id.sz

variable {ι : Type*} {mine : Nat → Prop} {w : memPool} {T : ι → Multiset Nat} {p q m n : Nat}

/-! ## Apart -/

/-- A chunk lies in the memory of its bucket, and a block of the heap elsewhere. -/
theorem Laid.carved_apart_block (h : Laid w) {id : bucket_id} (hp : (w.bucket id).Carved p)
    (hq : ⟨q, n⟩ ∈ w.heap.live) (hm : (w.bucket id).is_mine q = false) :
    p + id.sz ≤ q ∨ q + n ≤ p := by
  have hb := Bucket.carved_bounds (h.shaped id) hp
  have hpos := id.sz_pos
  have hregion := h.region_live id (by omega)
  have hne : (⟨q, n⟩ : Block) ≠
      ⟨(w.bucket id).bigptr, (w.bucket id).endptr - (w.bucket id).bigptr⟩ := by
    intro heq
    have hstart : (w.bucket id).is_mine q = true := by
      rw [Bucket.is_mine_iff, (Block.mk.inj heq).1]
      omega
    rw [hm] at hstart
    cases hstart
  have ha := h.live_apart.forall hq hregion hne
  simp only [Block.Apart] at ha
  omega

/-- Two pieces share no byte. -/
theorem Laid.backed_apart (h : Laid w) (hp : Backed w p m) (hq : Backed w q n) (hne : p ≠ q) :
    p + m ≤ q ∨ q + n ≤ p := by
  cases hp with
  | carved id hp hm =>
    subst hm
    cases hq with
    | carved id' hq hn =>
      subst hn
      by_cases hid : id = id'
      · subst hid
        exact Bucket.chunks_apart hp hq hne
      · have hb := Bucket.carved_bounds (h.shaped id) hp
        have hb' := Bucket.carved_bounds (h.shaped id') hq
        have hpos := id.sz_pos
        have hpos' := id'.sz_pos
        have hdiff : (⟨(w.bucket id).bigptr, (w.bucket id).endptr - (w.bucket id).bigptr⟩ : Block) ≠
            ⟨(w.bucket id').bigptr, (w.bucket id').endptr - (w.bucket id').bigptr⟩ := by
          intro heq
          apply hid
          apply h.mine_once id id' (w.bucket id).bigptr
          · rw [Bucket.is_mine_iff]
            omega
          · rw [Bucket.is_mine_iff, (Block.mk.inj heq).1]
            omega
        have ha := h.live_apart.forall (h.region_live id (by omega))
          (h.region_live id' (by omega)) hdiff
        simp only [Block.Apart] at ha
        omega
    | heap hq hn => exact h.carved_apart_block hp hq (hn id)
  | heap hp hm =>
    cases hq with
    | carved id hq hn =>
      subst hn
      exact (h.carved_apart_block hq hp (hm id)).symm
    | heap hq hn =>
      have ha := h.live_apart.forall hp hq fun heq => hne (Block.mk.inj heq).1
      simp only [Block.Apart] at ha
      omega

theorem Laid.room_apart (h : Laid w) (hp : Room w p m) (hq : Room w q n) (hne : p ≠ q) :
    p + m ≤ q ∨ q + n ≤ p := by
  obtain ⟨m', hp, hm⟩ := hp
  obtain ⟨n', hq, hn⟩ := hq
  have ha := h.backed_apart hp hq hne
  omega

/-! ## The room stays -/

theorem backed_acquire (hp : Backed w p m) (A : Allocator) (k : Nat) :
    Backed (w.acquire A k).2 p m := by
  apply (acquire_same_places A w k).backed _ hp
  intro hlive _
  by_cases hk : k = 0
  · subst hk
    simpa [memPool.acquire] using hlive
  · rcases acquire_cases A w hk with ⟨id, c, rest, -, -, heq⟩ | ⟨-, heq⟩
    · rw [heq]
      exact hlive
    · rw [heq]
      exact List.mem_cons_of_mem _ hlive

theorem backed_alloc (hp : Backed w p m) (A : Allocator) (k : Nat) :
    Backed { w with heap := (w.heap.alloc A k).2 } p m := by
  have hsame : SamePlaces w { w with heap := (w.heap.alloc A k).2 } :=
    fun _ => ⟨rfl, rfl, rfl, rfl⟩
  exact hsame.backed (fun hlive _ => List.mem_cons_of_mem _ hlive) hp

theorem backed_heap_dealloc (hp : Backed w p m) (hne : p ≠ q) :
    Backed { w with heap := w.heap.dealloc q } p m := by
  have hsame : SamePlaces w { w with heap := w.heap.dealloc q } := fun _ => ⟨rfl, rfl, rfl, rfl⟩
  apply hsame.backed _ hp
  intro hlive _
  simp only [Heap.dealloc]
  split
  · exact hlive
  split
  · exact List.mem_filter.mpr ⟨hlive, by simpa using hne⟩
  · exact hlive

theorem put_release (w : memPool) (id : bucket_id) (c : mem_chunk) :
    ∃ st, w.put id ((w.bucket id).release c) = w.put id { w.bucket id with bucket := st } ∧
      ∀ f ∈ st, f ∈ (w.bucket id).bucket ∨
        ((w.bucket id).is_mine c.ptr = true ∧ f = { c with in_pool := true }) := by
  by_cases hm : (w.bucket id).is_mine c.ptr = true
  · refine ⟨{ c with in_pool := true } :: (w.bucket id).bucket, by simp [Bucket.release, hm], ?_⟩
    intro f hf
    rcases List.mem_cons.mp hf with rfl | hf
    · exact Or.inr ⟨hm, rfl⟩
    · exact Or.inl hf
  · exact ⟨(w.bucket id).bucket, by simp [Bucket.release, hm], fun f hf => Or.inl hf⟩

theorem backed_release (hp : Backed w p m) {c : mem_chunk} (hne : p ≠ c.ptr) :
    Backed (w.release c) p m := by
  unfold memPool.release
  split
  · exact hp
  split
  · exact hp
  split
  · exact backed_heap_dealloc hp hne
  cases w.find_by_address c.ptr with
  | none => exact backed_heap_dealloc hp hne
  | some id =>
    obtain ⟨st, heq, -⟩ := put_release w id c
    simp only
    rw [heq]
    exact (same_places_put w id st).backed (fun hlive _ => hlive) hp

/-! ## What free chunks say -/

theorem modest_acquire (h : Modest w) (A : Allocator) (k : Nat) : Modest (w.acquire A k).2 := by
  by_cases hk : k = 0
  · subst hk
    simpa [memPool.acquire] using h
  · rcases acquire_cases A w hk with ⟨id, c, rest, -, hb, heq⟩ | ⟨-, heq⟩
    · rw [heq]
      intro id' f hf
      rw [put_bucket] at hf
      split at hf
      · rename_i hid
        subst hid
        exact h id' f (by rw [hb]; exact List.mem_cons_of_mem _ hf)
      · exact h id' f hf
    · rw [heq]
      exact h

theorem modest_release (h : Modest w) (hl : Laid w) {c : mem_chunk}
    (hc : c.ptr ≠ 0 → Room w c.ptr c.capacity) : Modest (w.release c) := by
  unfold memPool.release
  split
  · exact h
  rename_i hne
  split
  · exact h
  split
  · exact h
  cases w.find_by_address c.ptr with
  | none => exact h
  | some id =>
    obtain ⟨st, heq, hst⟩ := put_release w id c
    simp only
    rw [heq]
    intro id' f hf
    rw [put_bucket] at hf
    split at hf
    · rename_i hid
      subst hid
      rcases hst f hf with hf | ⟨hm, rfl⟩
      · exact h id' f hf
      · obtain ⟨k, hb, hle⟩ := hc hne
        cases hb with
        | carved id hp hk =>
          have hid : id = id' := hl.mine_once id id' c.ptr (carved_is_mine (hl.shaped id) hp) hm
          rw [← hid, ← hk]
          exact hle
        | heap _ hno =>
          rw [hno id'] at hm
          cases hm
    · exact h id' f hf

/-- What `acquire` gives has the room that it says, and the room that was asked for. -/
theorem Kept.room_acquire (h : Kept mine w T) (hm : Modest w) (A : Allocator) (hn : n ≠ 0) :
    (w.acquire A n).1.ptr ≠ 0 ∧
      Room (w.acquire A n).2 (w.acquire A n).1.ptr (w.acquire A n).1.capacity ∧
      Room (w.acquire A n).2 (w.acquire A n).1.ptr n := by
  rcases acquire_cases A w hn with ⟨id, c, rest, hpick, hb, heq⟩ | ⟨-, heq⟩
  · have hc : c ∈ (w.bucket id).bucket := by
      rw [hb]
      exact List.mem_cons_self
    have hcv := (h.free_carved id c hc).1
    have hback : Backed (w.acquire A n).2 c.ptr id.sz :=
      backed_acquire (.carved id hcv rfl) A n
    rw [heq] at hback ⊢
    exact ⟨h.carved_ne_null hcv, ⟨id.sz, hback, hm id c hc⟩, ⟨id.sz, hback, pick_bucket_fits hpick⟩⟩
  · have hback : Backed (w.from_heap A n).2 (w.from_heap A n).1.ptr n :=
      .heap List.mem_cons_self (h.toLaid.from_heap_not_mine A n)
    rw [heq]
    exact ⟨A.place_ne_null _ _ _, ⟨n, hback, Nat.le_refl n⟩, ⟨n, hback, Nat.le_refl n⟩⟩

/-- A new pool is modest. -/
theorem modest_init (A : Allocator) (canary_sz n₁ n₂ n₃ n₄ n₅ : Nat) :
    Modest (memPool.init A canary_sz n₁ n₂ n₃ n₄ n₅) := by
  intro id c hc
  have hnone : ∀ i : Unit, (fun _ : Unit => (none : Option mem_chunk)) i = none := fun _ => rfl
  have hsound := Sound.init A canary_sz n₁ n₂ n₃ n₄ n₅ hnone
  exact Nat.le_of_eq (hsound.free_carved id c hc).2

end socle.mempool
