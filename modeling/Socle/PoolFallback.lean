-- Which bucket serves a request when the picked one is exhausted
-- (common/mempool/mempool.cpp: acquire, pick_bucket, tryhard_available). The
-- second search is there for it, but only a request without a bucket gets there.
import Socle.PoolCapacity

namespace socle.mempool

/-! ## The law -/

/-- The buckets whose chunks are large enough, the smallest first. -/
def fitting (n : Nat) : List bucket_id :=
  buckets.filter fun id => n ≤ id.sz

example : buckets.Pairwise fun a b => a.sz < b.sz := by decide

/-- The three smallest of them. -/
def candidates (n : Nat) : List bucket_id :=
  (fitting n).take 3

/-- The bucket has a free chunk. -/
def memPool.has_free (w : memPool) (id : bucket_id) : Bool :=
  !(w.bucket id).bucket.isEmpty

/-- What `acquire` gave is the chunk on the top of the bucket, and all the rest of the pool is as it
was. -/
def TakenFrom (w : memPool) (id : bucket_id) (r : mem_chunk × memPool) : Prop :=
  ∃ c rest, (w.bucket id).bucket = c :: rest ∧ r.1.ptr = c.ptr ∧ r.1.capacity = c.capacity ∧
    r.1.pool_type = .POOL ∧ r.2 = w.put id { w.bucket id with bucket := rest }

/-- A request is served by the first of the three that has a free chunk, and by the heap when there
is none. -/
def FallsBack (A : Allocator) (w : memPool) (n : Nat) : Prop :=
  match (candidates n).find? w.has_free with
  | some id => TakenFrom w id (w.acquire A n)
  | none => w.acquire A n = w.from_heap A n

/-- The smallest bucket that fits has a free chunk, or the next two have none. -/
def Stocked (w : memPool) (n : Nat) : Prop :=
  ∀ id ∈ (candidates n).head?, w.has_free id = true ∨
    ∀ id' ∈ (candidates n).tail, w.has_free id' = false

instance (w : memPool) (n : Nat) : Decidable (Stocked w n) :=
  inferInstanceAs (Decidable (∀ id ∈ (candidates n).head?, w.has_free id = true ∨
    ∀ id' ∈ (candidates n).tail, w.has_free id' = false))

/-! ## The ladder of sizes -/

theorem find_fitting_cons (n : Nat) (id : bucket_id) (rest : List bucket_id) :
    (id :: rest).find? (fun id => decide (n ≤ id.sz)) =
      if n ≤ id.sz then some id else rest.find? fun id => decide (n ≤ id.sz) := by
  by_cases h : n ≤ id.sz
  · rw [List.find?_cons_of_pos (by simpa using h), if_pos h]
  · rw [List.find?_cons_of_neg (by simpa using h), if_neg h]

/-- The ladder finds the smallest bucket that fits, for every size. -/
theorem pick_bucket_eq (n : Nat) : pick_bucket n = (fitting n).head? := by
  rw [fitting, List.head?_filter]
  unfold pick_bucket buckets
  simp only [find_fitting_cons, List.find?_nil]
  simp only [bucket_id.sz]
  split_ifs <;> grind

theorem pick_bucket_candidates (n : Nat) : pick_bucket n = (candidates n).head? := by
  rw [pick_bucket_eq, candidates, List.head?_take]
  rfl

/-! ## What serves a request -/

variable {A : Allocator} {w : memPool} {n : Nat}

theorem has_free_iff (id : bucket_id) :
    w.has_free id = true ↔ ∃ c rest, (w.bucket id).bucket = c :: rest := by
  unfold memPool.has_free
  cases (w.bucket id).bucket with
  | nil => simp
  | cons c rest => simp

theorem has_free_false (id : bucket_id) :
    w.has_free id = false ↔ (w.bucket id).bucket = [] := by
  simp [memPool.has_free]

/-- A chunk is never taken from a bucket by a request that goes to the heap. -/
theorem not_taken_from_heap (id : bucket_id) : ¬ TakenFrom w id (w.from_heap A n) := by
  rintro ⟨c, rest, hbucket, -, -, -, hput⟩
  have hid : w.bucket id = { w.bucket id with bucket := rest } := by
    have hpool := congrArg (fun p => p.bucket id) hput
    simpa [memPool.from_heap, memPool.put] using hpool
  have hrest : c :: rest = rest := by
    rw [← hbucket]
    exact congrArg Bucket.bucket hid
  exact absurd (congrArg List.length hrest) (by simp)

/-- The picked bucket serves the request, when it can. -/
theorem acquire_picked {id : bucket_id} (hn : n ≠ 0) (hpick : pick_bucket n = some id)
    (hfree : w.has_free id = true) : TakenFrom w id (w.acquire A n) := by
  rcases acquire_cases A w hn with ⟨id', c, rest, hpick', hbucket, hacq⟩ | ⟨hnone, -⟩
  · rw [hpick] at hpick'
    cases hpick'
    exact ⟨c, rest, hbucket, by rw [hacq], by rw [hacq], by rw [hacq], by rw [hacq]⟩
  · rw [has_free_iff] at hfree
    obtain ⟨c, rest, hbucket⟩ := hfree
    rw [hnone id hpick] at hbucket
    cases hbucket

/-- When it cannot, the heap does. -/
theorem acquire_heap (hn : n ≠ 0) (hnone : ∀ id, pick_bucket n = some id → w.has_free id = false) :
    w.acquire A n = w.from_heap A n := by
  rcases acquire_cases A w hn with ⟨id, c, rest, hpick, hbucket, -⟩ | ⟨-, hacq⟩
  · have hempty := (has_free_false id).mp (hnone id hpick)
    rw [hbucket] at hempty
    cases hempty
  · exact hacq

/-- A request that no bucket can serve in the order of the fallback, because the smallest one that
fits is exhausted, goes to the heap. -/
theorem acquire_exhausted {id : bucket_id} (hn : n ≠ 0) (hid : (candidates n).head? = some id)
    (hfree : w.has_free id = false) : w.acquire A n = w.from_heap A n := by
  rw [← pick_bucket_candidates] at hid
  apply acquire_heap hn
  intro id' hid'
  rw [hid] at hid'
  cases hid'
  exact hfree

theorem stocked_falls_back (hn : n ≠ 0) (h : Stocked w n) : FallsBack A w n := by
  unfold FallsBack
  cases hc : candidates n with
  | nil =>
    apply acquire_heap hn
    intro id hid
    rw [pick_bucket_candidates, hc] at hid
    cases hid
  | cons id larger =>
    have hhead : (candidates n).head? = some id := by rw [hc, List.head?_cons]
    rcases h id hhead with hfree | hempty
    · rw [List.find?_cons_of_pos hfree]
      exact acquire_picked hn (by rw [pick_bucket_candidates, hhead]) hfree
    · rw [hc, List.tail_cons] at hempty
      have hlarger : larger.find? w.has_free = none :=
        List.find?_eq_none.mpr fun id' hid' => by simp [hempty id' hid']
      cases hfree : w.has_free id with
      | true =>
        rw [List.find?_cons_of_pos hfree]
        exact acquire_picked hn (by rw [pick_bucket_candidates, hhead]) hfree
      | false =>
        rw [List.find?_cons_of_neg (by simp [hfree]), hlarger]
        exact acquire_exhausted hn hhead hfree

theorem falls_back_stocked (hn : n ≠ 0) (h : FallsBack A w n) : Stocked w n := by
  intro id hid
  rw [or_iff_not_imp_left, Bool.not_eq_true]
  intro hfree id' hid'
  unfold FallsBack at h
  rw [List.eq_cons_of_mem_head? hid, List.find?_cons_of_neg (by simp [hfree])] at h
  cases hfind : (candidates n).tail.find? w.has_free with
  | none => simpa using List.find?_eq_none.mp hfind id' hid'
  | some found =>
    rw [hfind, acquire_exhausted hn hid hfree] at h
    exact absurd h (not_taken_from_heap found)

/-- The order of the fallback is kept when, and only when, there is no need for one: the smallest
bucket that fits has a free chunk, or the next two have none. -/
theorem fallbacks_are_ordered (A : Allocator) (w : memPool) (n : Nat) (hn : 0 < n) :
    FallsBack A w n ↔ Stocked w n :=
  ⟨falls_back_stocked (Nat.ne_of_gt hn), stocked_falls_back (Nat.ne_of_gt hn)⟩

/-! ## A bucket runs out -/

/-- A pool with one chunk of 1024 bytes, and none of another size. -/
def one_chunk : memPool :=
  memPool.init membuf.bump 0 0 1 0 0 0

theorem a_stocked_bucket_serves : FallsBack membuf.bump one_chunk 1000 :=
  (fallbacks_are_ordered membuf.bump one_chunk 1000 (by decide)).mpr (by decide +kernel)

/-- A request of 256 bytes goes to the heap, though the next bucket has a chunk. -/
theorem an_exhausted_bucket_is_not_replaced :
    ¬ ∀ (A : Allocator) (w : memPool) (n : Nat), 0 < n → FallsBack A w n := by
  intro hall
  have h := falls_back_stocked (by decide) (hall membuf.bump one_chunk 256 (by decide))
  exact absurd h (by decide +kernel)

end socle.mempool
