-- Who owns which memory. A piece is a chunk of the pool, or a block of the heap
-- that is not the memory of a bucket. Each piece is free in its bucket or has
-- one owner. This ledger does not look at capacities, so it also tells what
-- happens where the law of the capacities is broken.
import Socle.Lib.Ledger
import Socle.PoolConservation

namespace socle.mempool

open lib.ledger

/-! ## Pieces -/

/-- A piece of memory that can have an owner starts at `p`. -/
def Piece (w : memPool) (p : Nat) : Prop :=
  (∃ id, (w.bucket id).Carved p) ∨
    (∃ b ∈ w.heap.live, b.addr = p) ∧ ∀ id, (w.bucket id).bigptr ≠ p

/-- A bucket has a free chunk at `p`. -/
def Stacked (w : memPool) (p : Nat) : Prop :=
  ∃ id, ∃ c ∈ (w.bucket id).bucket, c.ptr = p

/-- What a holder has whose pointer is `p`. -/
def ref (p : Nat) : Multiset Nat :=
  if p = 0 then 0 else {p}

@[simp] theorem ref_null : ref 0 = 0 := rfl

theorem ref_add {p : Nat} (hp : p ≠ 0) (s : Multiset Nat) : ref p + s = p ::ₘ s := by
  unfold ref
  rw [if_neg hp, Multiset.singleton_add]

/-- Each piece is free once or has one owner, no owner has anything else, and no address went to
`delete[]` that it was not for. `mine` tells the addresses in the memory of the buckets. -/
structure Kept {ι : Type*} (mine : Nat → Prop) (w : memPool) (T : ι → Multiset Nat) : Prop
    extends Laid w where
  mine_iff : ∀ p, mine p ↔ ∃ id, (w.bucket id).is_mine p = true
  regions : ∀ id,
    ⟨(w.bucket id).bigptr, (w.bucket id).endptr - (w.bucket id).bigptr⟩ ∈ w.heap.live
  free_carved : ∀ id, ∀ c ∈ (w.bucket id).bucket, (w.bucket id).Carved c.ptr ∧ 0 < c.capacity
  free_once : ∀ id, ((w.bucket id).bucket.map mem_chunk.ptr).Nodup
  piece_iff : ∀ p, Piece w p ↔ Stacked w p ∨ Held T p
  not_free : ∀ p, Held T p → ¬ Stacked w p
  once : Once T
  no_bad_free : w.heap.bad = []
  running : w.bailing = false

variable {ι κ : Type*} {mine : Nat → Prop} {w : memPool} {T : ι → Multiset Nat} {i j : ι}
  {p : Nat} {s t : Multiset Nat}

/-- A block that is not the memory of a bucket does not start in the memory of a bucket. -/
theorem Laid.not_mine (h : Laid w) {b : Block} (hb : b ∈ w.heap.live)
    (hne : ∀ id, (w.bucket id).bigptr ≠ b.addr) (id : bucket_id) :
    (w.bucket id).is_mine b.addr = false := by
  by_contra hm
  rw [Bool.not_eq_false, Bucket.is_mine_iff] at hm
  have hregion := h.region_live id (by omega)
  have hdiff : b ≠ ⟨(w.bucket id).bigptr, (w.bucket id).endptr - (w.bucket id).bigptr⟩ := by
    intro heq
    apply hne id
    rw [heq]
  have ha := h.live_apart.forall hb hregion hdiff
  simp only [Block.Apart] at ha
  omega

theorem Kept.piece_of_held (h : Kept mine w T) (hp : Held T p) : Piece w p :=
  (h.piece_iff p).mpr (Or.inr hp)

theorem Kept.ne_null (h : Kept mine w T) (hp : Held T p) : p ≠ 0 := by
  rcases h.piece_of_held hp with ⟨id, hc⟩ | ⟨⟨b, hb, rfl⟩, -⟩
  · exact h.carved_ne_null hc
  · exact h.live_ne_null b hb

theorem Kept.mine_of_carved (h : Kept mine w T) {id : bucket_id} (hp : (w.bucket id).Carved p) :
    mine p :=
  (h.mine_iff p).mpr ⟨id, carved_is_mine (h.shaped id) hp⟩

/-- What is owned in the memory of a bucket is a chunk of that bucket. -/
theorem Kept.carved (h : Kept mine w T) (hp : Held T p) {id : bucket_id}
    (hm : (w.bucket id).is_mine p = true) : (w.bucket id).Carved p := by
  rcases h.piece_of_held hp with ⟨id', hc⟩ | ⟨⟨b, hb, rfl⟩, hne⟩
  · have hid : id' = id := h.mine_once id' id p (carved_is_mine (h.shaped id') hc) hm
    rwa [hid] at hc
  · rw [h.not_mine hb hne id] at hm
    cases hm

/-- What is owned elsewhere is a block of the heap. -/
theorem Kept.block (h : Kept mine w T) (hp : Held T p) (hm : ¬ mine p) :
    (∃ b ∈ w.heap.live, b.addr = p) ∧ ∀ id, (w.bucket id).bigptr ≠ p := by
  rcases h.piece_of_held hp with ⟨id, hc⟩ | hblock
  · exact absurd (h.mine_of_carved hc) hm
  · exact hblock

/-! ## The ledger changes -/

/-- Another ledger of the same things. -/
theorem Kept.reorder {T' : κ → Multiset Nat} (h : Kept mine w T) (ho : Once T')
    (hh : ∀ p, Held T' p ↔ Held T p) : Kept mine w T' := by
  refine ⟨h.toLaid, h.mine_iff, h.regions, h.free_carved, h.free_once, ?_, ?_, ho, h.no_bad_free,
    h.running⟩
  · intro p
    rw [hh p]
    exact h.piece_iff p
  · intro p hp
    exact h.not_free p ((hh p).mp hp)

theorem Kept.rename (h : Kept mine w T) (e : κ ≃ ι) : Kept mine w fun k => T (e k) :=
  h.reorder (h.once.rename e) (held_rename e)

/-- Holder `j` hands `s` over to holder `i`. -/
theorem Kept.pass [DecidableEq ι] (h : Kept mine w T) (hij : i ≠ j) (hj : T j = s + t) :
    Kept mine w (Function.update (Function.update T j t) i (s + T i)) :=
  h.reorder (h.once.pass hij hj) fun _ => held_pass hij hj

/-! ## The four moves -/

theorem SamePlaces.mine_iff {w' : memPool} (hs : SamePlaces w w') (h : Kept mine w T) (p : Nat) :
    mine p ↔ ∃ id, (w'.bucket id).is_mine p = true := by
  rw [h.mine_iff]
  exact exists_congr fun id => by rw [hs.is_mine]

theorem SamePlaces.regions {w' : memPool} (hs : SamePlaces w w') (h : Kept mine w T)
    (hlive : ∀ id, ∀ b ∈ w.heap.live, b.addr = (w.bucket id).bigptr → b ∈ w'.heap.live)
    (id : bucket_id) :
    ⟨(w'.bucket id).bigptr, (w'.bucket id).endptr - (w'.bucket id).bigptr⟩ ∈ w'.heap.live := by
  rw [(hs id).1, (hs id).2.1]
  exact hlive id _ (h.regions id) rfl

theorem SamePlaces.piece {w' : memPool} (hs : SamePlaces w w')
    (hlive : w'.heap.live = w.heap.live) (p : Nat) : Piece w' p ↔ Piece w p := by
  unfold Piece
  rw [hlive]
  apply or_congr
  · exact exists_congr fun id => hs.carved id p
  · apply and_congr_right
    intro _
    exact forall_congr' fun id => by rw [(hs id).1]

theorem stacked_put (w : memPool) (id : bucket_id) (st : List mem_chunk) (p : Nat) :
    Stacked (w.put id { w.bucket id with bucket := st }) p ↔
      (∃ c ∈ st, c.ptr = p) ∨ ∃ id', id' ≠ id ∧ ∃ c ∈ (w.bucket id').bucket, c.ptr = p := by
  unfold Stacked
  constructor
  · rintro ⟨id', c, hc, hp⟩
    rw [put_bucket] at hc
    split at hc
    · exact Or.inl ⟨c, hc, hp⟩
    · rename_i hid
      exact Or.inr ⟨id', hid, c, hc, hp⟩
  · rintro (⟨c, hc, hp⟩ | ⟨id', hid, c, hc, hp⟩)
    · exact ⟨id, c, by rwa [put_bucket, if_pos rfl], hp⟩
    · exact ⟨id', c, by rwa [put_bucket, if_neg hid], hp⟩

section
variable [DecidableEq ι]

/-- The chunk on top of a stack goes to holder `i`. -/
theorem Kept.take (h : Kept mine w T) {id : bucket_id} {c : mem_chunk} {rest : List mem_chunk}
    (hb : (w.bucket id).bucket = c :: rest) (hi : T i = s) :
    Kept mine (w.put id { w.bucket id with bucket := rest })
      (Function.update T i (c.ptr ::ₘ s)) := by
  have hsame := same_places_put w id rest
  have hc : c ∈ (w.bucket id).bucket := by
    rw [hb]
    exact List.mem_cons_self
  have hcv := (h.free_carved id c hc).1
  have hsub : ∀ id', ∀ f ∈ ((w.put id { w.bucket id with bucket := rest }).bucket id').bucket,
      f ∈ (w.bucket id').bucket := by
    intro id' f hf
    rw [put_bucket] at hf
    split at hf
    · rename_i he
      subst he
      rw [hb]
      exact List.mem_cons_of_mem _ hf
    · exact hf
  have hn := h.free_once id
  rw [hb, List.map_cons, List.nodup_cons] at hn
  have hst : ∀ q, Stacked (w.put id { w.bucket id with bucket := rest }) q ↔
      q ≠ c.ptr ∧ Stacked w q := by
    intro q
    constructor
    · rintro ⟨id', f, hf, rfl⟩
      refine ⟨fun heq => ?_, id', f, hsub id' f hf, rfl⟩
      -- a free chunk at the address of `c` is in the bucket of `c`, and there it was just once
      have hid : id' = id := by
        refine h.mine_once id' id c.ptr ?_ (carved_is_mine (h.shaped id) hcv)
        rw [← heq]
        exact carved_is_mine (h.shaped id') (h.free_carved id' f (hsub id' f hf)).1
      subst hid
      rw [put_bucket, if_pos rfl] at hf
      exact hn.1 (List.mem_map.mpr ⟨f, hf, heq⟩)
    · rintro ⟨hne, id', f, hf, rfl⟩
      refine ⟨id', f, ?_, rfl⟩
      rw [put_bucket]
      split
      · rename_i he
        subst he
        rw [hb] at hf
        rcases List.mem_cons.mp hf with rfl | hf
        · exact absurd rfl hne
        · exact hf
      · exact hf
  have hnot : ¬ Held T c.ptr := fun hheld => h.not_free c.ptr hheld ⟨id, c, hc, rfl⟩
  refine ⟨hsame.laid h.toLaid rfl, hsame.mine_iff h, hsame.regions h (fun _ _ hb _ => hb),
    ?_, ?_, ?_, ?_, h.once.gain hnot hi, h.no_bad_free, h.running⟩
  · intro id' f hf
    rw [hsame.carved]
    exact h.free_carved id' f (hsub id' f hf)
  · intro id'
    rw [put_bucket]
    split
    · exact hn.2
    · exact h.free_once id'
  · intro q
    rw [hsame.piece rfl, h.piece_iff, hst, held_gain hi]
    by_cases hq : q = c.ptr
    · subst hq
      simp only [ne_eq, not_true_eq_false, false_and, true_or, or_true, iff_true]
      exact Or.inl ⟨id, c, hc, rfl⟩
    · simp [hq]
  · intro q hq hq'
    rw [hst] at hq'
    rcases (held_gain hi).mp hq with heq | hheld
    · exact hq'.1 heq
    · exact h.not_free q hheld hq'.2

/-- A new block of the heap goes to holder `i`. -/
theorem Kept.grow (h : Kept mine w T) (A : Allocator) (n : Nat) (hi : T i = s) :
    Kept mine { w with heap := (w.heap.alloc A n).2 }
      (Function.update T i ((w.heap.alloc A n).1 ::ₘ s)) := by
  have hsame : SamePlaces w { w with heap := (w.heap.alloc A n).2 } :=
    fun _ => ⟨rfl, rfl, rfl, rfl⟩
  have hapart := A.place_apart w.heap.asked w.heap.live n
  have hkeep : ∀ b ∈ w.heap.live, b ∈ (w.heap.alloc A n).2.live :=
    fun b hb => List.mem_cons_of_mem _ hb
  have hfresh : ∀ b ∈ w.heap.live, b.addr ≠ (w.heap.alloc A n).1 := by
    intro b hb heq
    have ha := hapart b hb
    simp only [Heap.alloc, Block.Apart] at heq ha
    omega
  have hregion : ∀ id, (w.bucket id).bigptr ≠ (w.heap.alloc A n).1 :=
    fun id => hfresh _ (h.regions id)
  have hlaid : Laid { w with heap := (w.heap.alloc A n).2 } := by
    refine ⟨h.shaped, h.mine_once, fun id hlt => hkeep _ (h.region_live id hlt), ?_, ?_⟩
    · exact List.pairwise_cons.mpr ⟨hapart, h.live_apart⟩
    · intro b hb
      rcases List.mem_cons.mp hb with rfl | hb
      · exact A.place_ne_null _ _ _
      · exact h.live_ne_null b hb
  have hmine : ∀ id, (w.bucket id).is_mine (w.heap.alloc A n).1 = false :=
    hlaid.not_mine (b := ⟨(w.heap.alloc A n).1, n⟩) List.mem_cons_self hregion
  have hcarved : ∀ id, ¬ (w.bucket id).Carved (w.heap.alloc A n).1 := by
    intro id hc
    have hm := carved_is_mine (h.shaped id) hc
    rw [hmine id] at hm
    cases hm
  have hnot : ¬ Held T (w.heap.alloc A n).1 := by
    intro hheld
    rcases h.piece_of_held hheld with ⟨id, hc⟩ | ⟨⟨b, hb, heq⟩, -⟩
    · exact hcarved id hc
    · exact hfresh b hb heq
  refine ⟨hlaid, hsame.mine_iff h, fun id => hkeep _ (h.regions id), h.free_carved, h.free_once,
    ?_, ?_, h.once.gain hnot hi, h.no_bad_free, h.running⟩
  · intro q
    rw [held_gain hi, or_left_comm, show Stacked { w with heap := (w.heap.alloc A n).2 } q ↔
      Stacked w q from Iff.rfl, ← h.piece_iff]
    unfold Piece
    constructor
    · rintro (hc | ⟨⟨b, hb, rfl⟩, hne⟩)
      · exact Or.inr (Or.inl hc)
      · rcases List.mem_cons.mp hb with rfl | hb
        · exact Or.inl rfl
        · exact Or.inr (Or.inr ⟨⟨b, hb, rfl⟩, hne⟩)
    · rintro (rfl | hc | ⟨⟨b, hb, rfl⟩, hne⟩)
      · exact Or.inr ⟨⟨_, List.mem_cons_self, rfl⟩, hregion⟩
      · exact Or.inl hc
      · exact Or.inr ⟨⟨b, hkeep b hb, rfl⟩, hne⟩
  · intro q hq hst
    rcases (held_gain hi).mp hq with rfl | hheld
    · obtain ⟨id, c, hc, heq⟩ := hst
      exact hcarved id (heq ▸ (h.free_carved id c hc).1)
    · exact h.not_free q hheld hst

/-- Holder `i` gives a chunk back to the stack of its bucket. -/
theorem Kept.give_back (h : Kept mine w T) {c : mem_chunk} (hi : T i = c.ptr ::ₘ s)
    (hcap : 0 < c.capacity) {id : bucket_id} (hm : (w.bucket id).is_mine c.ptr = true) :
    Kept mine (w.put id ((w.bucket id).release c)) (Function.update T i s) := by
  have hput : (w.bucket id).release c =
      { w.bucket id with bucket := { c with in_pool := true } :: (w.bucket id).bucket } := by
    simp [Bucket.release, hm]
  rw [hput]
  have hsame := same_places_put w id ({ c with in_pool := true } :: (w.bucket id).bucket)
  have hheld : Held T c.ptr := by
    refine ⟨i, ?_⟩
    rw [hi]
    exact Multiset.mem_cons_self _ _
  have hcv := h.carved hheld hm
  have hnot := h.not_free c.ptr hheld
  have hst : ∀ q, Stacked (w.put id { w.bucket id with
      bucket := { c with in_pool := true } :: (w.bucket id).bucket }) q ↔
      q = c.ptr ∨ Stacked w q := by
    intro q
    rw [stacked_put]
    constructor
    · rintro (⟨f, hf, rfl⟩ | ⟨id', -, f, hf, rfl⟩)
      · rcases List.mem_cons.mp hf with rfl | hf
        · exact Or.inl rfl
        · exact Or.inr ⟨id, f, hf, rfl⟩
      · exact Or.inr ⟨id', f, hf, rfl⟩
    · rintro (rfl | ⟨id', f, hf, rfl⟩)
      · exact Or.inl ⟨_, List.mem_cons_self, rfl⟩
      · by_cases hid : id' = id
        · subst hid
          exact Or.inl ⟨f, List.mem_cons_of_mem _ hf, rfl⟩
        · exact Or.inr ⟨id', hid, f, hf, rfl⟩
  refine ⟨hsame.laid h.toLaid rfl, hsame.mine_iff h, hsame.regions h (fun _ _ hb _ => hb),
    ?_, ?_, ?_, ?_, h.once.lose hi, h.no_bad_free, h.running⟩
  · intro id' f hf
    rw [put_bucket] at hf
    rw [hsame.carved]
    split at hf
    · rename_i he
      subst he
      rcases List.mem_cons.mp hf with rfl | hf
      · exact ⟨hcv, hcap⟩
      · exact h.free_carved id' f hf
    · exact h.free_carved id' f hf
  · intro id'
    rw [put_bucket]
    split
    · rename_i he
      subst he
      rw [List.map_cons, List.nodup_cons]
      refine ⟨fun hin => ?_, h.free_once id'⟩
      obtain ⟨f, hf, heq⟩ := List.mem_map.mp hin
      exact hnot ⟨id', f, hf, heq⟩
    · exact h.free_once id'
  · intro q
    rw [hsame.piece rfl, h.piece_iff, hst, h.once.held_lose hi]
    by_cases hq : q = c.ptr
    · subst hq
      simp [hheld]
    · simp [hq]
  · intro q hq hq'
    rw [hst] at hq'
    rw [h.once.held_lose hi] at hq
    rcases hq' with heq | hq'
    · exact hq.1 heq
    · exact h.not_free q hq.2 hq'

/-- Holder `i` gives a block back to the heap. -/
theorem Kept.free (h : Kept mine w T) (hi : T i = p ::ₘ s) (hm : ¬ mine p) :
    Kept mine { w with heap := w.heap.dealloc p } (Function.update T i s) := by
  have hheld : Held T p := by
    refine ⟨i, ?_⟩
    rw [hi]
    exact Multiset.mem_cons_self _ _
  obtain ⟨⟨b, hb, hbp⟩, hregion⟩ := h.block hheld hm
  have hdealloc : w.heap.dealloc p =
      { w.heap with live := w.heap.live.filter fun b => b.addr ≠ p } := by
    have hany : (w.heap.live.any fun b => b.addr = p) = true :=
      List.any_eq_true.mpr ⟨b, hb, by simpa using hbp⟩
    unfold Heap.dealloc
    rw [if_neg (h.ne_null hheld), if_pos hany]
  rw [hdealloc]
  have hkeep : ∀ b ∈ w.heap.live, b.addr ≠ p → b ∈ w.heap.live.filter fun b => b.addr ≠ p :=
    fun b hb hne => List.mem_filter.mpr ⟨hb, by simpa using hne⟩
  have hregions : ∀ id, _ ∈ w.heap.live.filter fun b => b.addr ≠ p :=
    fun id => hkeep _ (h.regions id) (hregion id)
  have hsub : (w.heap.live.filter fun b => b.addr ≠ p).Sublist w.heap.live :=
    List.filter_sublist
  have hcarved : ∀ id, ¬ (w.bucket id).Carved p :=
    fun id hc => hm (h.mine_of_carved hc)
  refine ⟨⟨h.shaped, h.mine_once, fun id _ => hregions id, h.live_apart.sublist hsub,
    fun b hb => h.live_ne_null b (hsub.subset hb)⟩, h.mine_iff, hregions, h.free_carved,
    h.free_once, ?_, ?_, h.once.lose hi, h.no_bad_free, h.running⟩
  · intro q
    rw [h.once.held_lose hi]
    have hst : Stacked w q → q ≠ p := by
      rintro ⟨id, c, hc, rfl⟩ heq
      exact hcarved id (heq ▸ (h.free_carved id c hc).1)
    have hsame : Piece { w with heap :=
        { w.heap with live := (w.heap.live.filter fun b => b.addr ≠ p) } } q ↔
        q ≠ p ∧ Piece w q := by
      unfold Piece
      constructor
      · rintro (⟨id, hc⟩ | ⟨⟨b, hb, rfl⟩, hne⟩)
        · exact ⟨fun heq => hcarved id (heq ▸ hc), Or.inl ⟨id, hc⟩⟩
        · obtain ⟨hb, hbne⟩ := List.mem_filter.mp hb
          exact ⟨by simpa using hbne, Or.inr ⟨⟨b, hb, rfl⟩, hne⟩⟩
      · rintro ⟨hqp, hc | ⟨⟨b, hb, rfl⟩, hne⟩⟩
        · exact Or.inl hc
        · exact Or.inr ⟨⟨b, hkeep b hb hqp, rfl⟩, hne⟩
    rw [hsame, h.piece_iff]
    constructor
    · rintro ⟨hqp, hq | hq⟩
      · exact Or.inl hq
      · exact Or.inr ⟨hqp, hq⟩
    · rintro (hq | ⟨hqp, hq⟩)
      · exact ⟨hst hq, Or.inl hq⟩
      · exact ⟨hqp, Or.inr hq⟩
  · intro q hq
    exact h.not_free q ((h.once.held_lose hi).mp hq).2

/-! ## The calls -/

/-- A chunk that can go back: in the memory of a bucket it has a capacity, and it is not called a
chunk of the heap. -/
def Returns (mine : Nat → Prop) (c : mem_chunk) : Prop :=
  c.ptr ≠ 0 → mine c.ptr → 0 < c.capacity ∧ c.pool_type ≠ .HEAP

/-- The chunk that `acquire` gives goes to holder `i`. -/
theorem Kept.acquire (h : Kept mine w T) (A : Allocator) (n : Nat) (hi : T i = s) :
    Kept mine (w.acquire A n).2 (Function.update T i (ref (w.acquire A n).1.ptr + s)) := by
  by_cases hn : n = 0
  · subst hn
    have hnull : w.acquire A 0 = ({ ptr := 0, capacity := 0 }, w) := by
      simp [memPool.acquire]
    rw [hnull, ref_null, zero_add, ← hi, Function.update_eq_self]
    exact h
  · rcases acquire_cases A w hn with ⟨id, c, rest, -, hb, heq⟩ | ⟨-, heq⟩
    · rw [heq]
      have hcv := (h.free_carved id c (by rw [hb]; exact List.mem_cons_self)).1
      rw [ref_add (h.carved_ne_null hcv)]
      exact h.take hb hi
    · have hne : (w.from_heap A n).1.ptr ≠ 0 := A.place_ne_null _ _ _
      rw [heq, ref_add hne]
      exact h.grow A n hi

omit [DecidableEq ι] in
/-- What `acquire` gives has a capacity and can go back. -/
theorem Kept.acquired (h : Kept mine w T) (A : Allocator) (n : Nat) :
    ((w.acquire A n).1.ptr ≠ 0 → 0 < (w.acquire A n).1.capacity) ∧
      Returns mine (w.acquire A n).1 := by
  by_cases hn : n = 0
  · subst hn
    have hnull : (w.acquire A 0).1 = { ptr := 0, capacity := 0 } := by
      simp [memPool.acquire]
    rw [hnull]
    exact ⟨fun hne => absurd rfl hne, fun hne => absurd rfl hne⟩
  · rcases acquire_cases A w hn with ⟨id, c, rest, -, hb, heq⟩ | ⟨-, heq⟩
    · rw [heq]
      have hcap := (h.free_carved id c (by rw [hb]; exact List.mem_cons_self)).2
      exact ⟨fun _ => hcap, fun _ _ => ⟨hcap, by simp⟩⟩
    · rw [heq]
      refine ⟨fun _ => Nat.pos_of_ne_zero hn, fun _ hm => ?_⟩
      obtain ⟨id, hid⟩ := (h.mine_iff _).mp hm
      rw [h.toLaid.from_heap_not_mine A n id] at hid
      cases hid

omit [DecidableEq ι] in
/-- What `acquire` gives is in the memory of a bucket when, and only when, the bucket for that size has
a chunk left. -/
theorem Kept.acquired_mine_iff (h : Kept mine w T) (A : Allocator) {n : Nat} (hn : n ≠ 0) :
    mine (w.acquire A n).1.ptr ↔ ∃ id, pick_bucket n = some id ∧ (w.bucket id).bucket ≠ [] := by
  rcases acquire_cases A w hn with ⟨id, c, rest, hpick, hb, heq⟩ | ⟨hempty, heq⟩
  · have hcv := (h.free_carved id c (by rw [hb]; exact List.mem_cons_self)).1
    rw [heq]
    refine iff_of_true (h.mine_of_carved hcv) ⟨id, hpick, ?_⟩
    rw [hb]
    exact List.cons_ne_nil c rest
  · rw [heq]
    refine iff_of_false (fun hm => ?_) fun ⟨id, hpick, hleft⟩ => hleft (hempty id hpick)
    obtain ⟨id, hid⟩ := (h.mine_iff _).mp hm
    rw [h.toLaid.from_heap_not_mine A n id] at hid
    cases hid

/-- `delete[]` takes what holder `i` has outside of the buckets. -/
theorem Kept.delete (h : Kept mine w T) (hi : T i = ref p + s) (hm : p ≠ 0 → ¬ mine p) :
    Kept mine { w with heap := w.heap.dealloc p } (Function.update T i s) := by
  by_cases hp : p = 0
  · subst hp
    rw [ref_null, zero_add] at hi
    rw [← hi, Function.update_eq_self]
    exact h
  · rw [ref_add hp] at hi
    exact h.free hi (hm hp)

/-- `release` takes the chunk of holder `i`. -/
theorem Kept.release (h : Kept mine w T) {c : mem_chunk} (hi : T i = ref c.ptr + s)
    (hc : Returns mine c) : Kept mine (w.release c) (Function.update T i s) := by
  unfold memPool.release
  by_cases hp : c.ptr = 0
  · rw [if_pos hp]
    rw [hp, ref_null, zero_add] at hi
    rw [← hi, Function.update_eq_self]
    exact h
  rw [if_neg hp, h.running, if_neg Bool.false_ne_true]
  split
  · rename_i htype
    exact h.delete hi fun _ hm => (hc hp hm).2 htype
  · cases hfind : w.find_by_address c.ptr with
    | none =>
      apply h.delete hi
      intro _ hm
      obtain ⟨id, hid⟩ := (h.mine_iff _).mp hm
      rw [find_by_address_none.mp hfind id] at hid
      cases hid
    | some id =>
      have hid := find_by_address_some hfind
      rw [ref_add hp] at hi
      exact h.give_back hi (hc hp ((h.mine_iff _).mpr ⟨id, hid⟩)).1 hid

end

/-! ## The law -/

/-- Each chunk of the pool is free once or has one owner. Each block of the heap belongs to the
pool or has one owner. Nobody owns anything else, and `delete[]` got only what `new[]` gave, and
got it once. -/
structure InOrder (w : memPool) (T : ι → Multiset Nat) : Prop where
  chunk : ∀ id p, (w.bucket id).Carved p → Xor (Stacked w p) (Held T p)
  free_once : ∀ id, ((w.bucket id).bucket.map mem_chunk.ptr).Nodup
  block : ∀ b ∈ w.heap.live, (∃ id, (w.bucket id).bigptr = b.addr) ∨ Held T b.addr
  real : ∀ p, Held T p → Piece w p
  one_owner : Once T
  no_bad_free : w.heap.bad = []

theorem Kept.in_order (h : Kept mine w T) : InOrder w T := by
  refine ⟨?_, h.free_once, ?_, fun p => h.piece_of_held, h.once, h.no_bad_free⟩
  · intro id p hp
    rcases (h.piece_iff p).mp (Or.inl ⟨id, hp⟩) with hfree | hheld
    · exact Or.inl ⟨hfree, fun hheld => h.not_free p hheld hfree⟩
    · exact Or.inr ⟨hheld, h.not_free p hheld⟩
  · intro b hb
    by_cases hregion : ∃ id, (w.bucket id).bigptr = b.addr
    · exact Or.inl hregion
    · right
      have hne := not_exists.mp hregion
      rcases (h.piece_iff b.addr).mp (Or.inr ⟨⟨b, hb, rfl⟩, hne⟩) with ⟨id, c, hc, hp⟩ | hheld
      · -- a block that is not the memory of a bucket is no chunk
        have hm := carved_is_mine (h.shaped id) (h.free_carved id c hc).1
        rw [hp, h.not_mine hb hne id] at hm
        cases hm
      · exact hheld

/-! ## A new pool -/

/-- The addresses in the memory of the buckets of `w`. -/
def memPool.Mine (w : memPool) (p : Nat) : Prop :=
  ∃ id, (w.bucket id).is_mine p = true

instance (w : memPool) (p : Nat) : Decidable (w.Mine p) :=
  decidable_of_iff (∃ id ∈ buckets, (w.bucket id).is_mine p = true)
    ⟨fun ⟨id, _, h⟩ => ⟨id, h⟩, fun ⟨id, h⟩ => ⟨id, mem_buckets id, h⟩⟩

/-- The blocks of a new pool are the memory of the buckets that have theirs. -/
theorem allocate_regions (A : Allocator) (canary_sz : Nat) (cnts : List (bucket_id × Nat))
    (hn : (cnts.map Prod.fst).Nodup)
    (hlive : ∀ id, id ∉ cnts.map Prod.fst →
      ⟨(w.bucket id).bigptr, (w.bucket id).endptr - (w.bucket id).bigptr⟩ ∈ w.heap.live)
    (hblock : ∀ b ∈ w.heap.live, ∃ id, id ∉ cnts.map Prod.fst ∧ (w.bucket id).bigptr = b.addr) :
    let w' := memPool.allocate A canary_sz cnts w
    (∀ id, ⟨(w'.bucket id).bigptr, (w'.bucket id).endptr - (w'.bucket id).bigptr⟩ ∈
      w'.heap.live) ∧ ∀ b ∈ w'.heap.live, ∃ id, (w'.bucket id).bigptr = b.addr := by
  induction cnts generalizing w with
  | nil =>
    refine ⟨fun id => hlive id (by simp), fun b hb => ?_⟩
    obtain ⟨id, -, hid⟩ := hblock b hb
    exact ⟨id, hid⟩
  | cons head rest ih =>
    obtain ⟨id, cnt⟩ := head
    rw [List.map_cons, List.nodup_cons] at hn
    simp only [memPool.allocate]
    rw [init_memory_eq A canary_sz cnt id.sz id.sz_pos]
    apply ih hn.2
    · intro id' hid'
      by_cases he : id' = id
      · subst he
        simp [memPool.put]
      · simp only [memPool.put, Function.update_of_ne he]
        exact List.mem_cons_of_mem _ (hlive id' (by simp [he, hid']))
    · intro b hb
      rcases List.mem_cons.mp hb with rfl | hb
      · exact ⟨id, hn.1, by simp [memPool.put]⟩
      · obtain ⟨id', hid', hbp⟩ := hblock b hb
        simp only [List.map_cons, List.mem_cons, not_or] at hid'
        exact ⟨id', hid'.2, by simpa [memPool.put, hid'.1] using hbp⟩

/-- Nobody has a piece of a new pool. -/
theorem Kept.init (A : Allocator) (canary_sz n₁ n₂ n₃ n₄ n₅ : Nat) (hT : ∀ i, T i = 0) :
    Kept (memPool.init A canary_sz n₁ n₂ n₃ n₄ n₅).Mine
      (memPool.init A canary_sz n₁ n₂ n₃ n₄ n₅) T := by
  have hnone : ∀ i : ι, (fun _ : ι => (none : Option mem_chunk)) i = none := fun _ => rfl
  have hsound := Conserved.init A canary_sz n₁ n₂ n₃ n₄ n₅ hnone
  have hflags := allocate_flags A canary_sz (counts n₁ n₂ n₃ n₄ n₅) { bucket := fun _ => {} }
  obtain ⟨hregions, hblocks⟩ := allocate_regions (w := { bucket := fun _ => {} }) A canary_sz
    (counts n₁ n₂ n₃ n₄ n₅) (by simp [counts])
    (fun id hid => absurd (by cases id <;> simp [counts]) hid) (by simp)
  refine ⟨hsound.toLaid, fun _ => Iff.rfl, hregions, ?_, hsound.free_once, ?_, ?_,
    Once.empty hT, hflags.2, hflags.1⟩
  · intro id c hc
    obtain ⟨hcv, hcap⟩ := hsound.free_carved id c hc
    rw [hcap]
    exact ⟨hcv, id.sz_pos⟩
  · intro p
    constructor
    · rintro (⟨id, hc⟩ | ⟨⟨b, hb, rfl⟩, hne⟩)
      · rcases hsound.nothing_lost id p hc with ⟨f, hf, hp⟩ | ⟨i, c, hi, -⟩
        · exact Or.inl ⟨id, f, hf, hp⟩
        · cases hi
      · obtain ⟨id, hid⟩ := hblocks b hb
        exact absurd hid (hne id)
    · rintro (⟨id, c, hc, rfl⟩ | hheld)
      · exact Or.inl ⟨id, (hsound.free_carved id c hc).1⟩
      · exact absurd hheld (not_held_empty hT p)
  · intro p hp
    exact absurd hp (not_held_empty hT p)

end socle.mempool
